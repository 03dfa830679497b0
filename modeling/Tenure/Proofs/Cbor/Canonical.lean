import Tenure.Proofs.Cbor.Reading

/-!
# Canonical forms

No two items have the same canonical form, and no canonical form is the beginning of another: `Item.Bounded.encode_inj`.
This does not follow from reading what was written, since the reader refuses what is nested too deep; but its first step
tells which item an item without parts is, and how many parts an array or a map has.
-/

set_option autoImplicit false

namespace Tenure.Cbor

/-- What one step of the reader makes of an item without parts; with parts there are none. -/
def Item.front? : Item → Option Item
  | .array _ => none
  | .map _ => none
  | item => some item.received

/-- One step of the reader, with no room for nesting, on an item in front of any octets. -/
theorem Item.Bounded.takeItem?_one {item : Item} (h : item.Bounded) (rest : List UInt8) :
    takeItem? 1 0 (item.encode ++ rest) = item.front?.map fun front => (front, rest) := by
  cases h with
  | uint h => exact takeItem?_uint h 0 0 rest
  | nint h => exact takeItem?_nint h 0 0 rest
  | text hsize => exact takeItem?_text hsize 0 0 rest
  | float => exact takeItem?_float _ 0 0 rest
  | bool => exact takeItem?_bool _ 0 0 rest
  | null => exact takeItem?_null 0 0 rest
  | @array items hlength =>
    rw [Item.encode, List.append_assoc, takeItem?, takeHead?_head (by decide) hlength]
    rfl
  | @map entries hlength =>
    rw [Item.encode, List.append_assoc, takeItem?, takeHead?_head (by decide) hlength]
    rfl

/-- The item that the reader told apart because its octets are not UTF-8. -/
def Item.asText : Item → Item
  | .garbled octets => .text ⟨octets⟩
  | item => item

theorem asText_textItem (t : Text) : (textItem [t.octets]).asText = .text t := by
  unfold textItem
  split <;> simp [Item.asText]

theorem Item.Bounded.asText_front? {item front : Item} (h : item.Bounded) (hfront : item.front? = some front) :
    front.asText = item := by
  cases h with
  | array | map => cases hfront
  | text =>
    cases hfront
    exact asText_textItem _
  | uint | nint | float | bool | null =>
    cases hfront
    rfl

/-- The form of an item, in front of any octets, is the form of no other item in front of any octets. -/
def Item.Apart (item : Item) : Prop :=
  ∀ (other : Item) (rest after : List UInt8), other.Bounded → item.encode ++ rest = other.encode ++ after →
    item = other ∧ rest = after

theorem Item.Bounded.apart_of_front? {item front : Item} (h : item.Bounded) (hfront : item.front? = some front) :
    item.Apart := by
  intro other rest after hother heq
  have hstep := congrArg (takeItem? 1 0) heq
  rw [h.takeItem?_one, hother.takeItem?_one, hfront] at hstep
  cases hfront' : other.front? with
  | none =>
    rw [hfront'] at hstep
    cases hstep
  | some front' =>
    rw [hfront'] at hstep
    cases hstep
    exact ⟨(h.asText_front? hfront).symm.trans (hother.asText_front? hfront'), rfl⟩

/-- The forms of as many items in a row, in front of any octets, are the forms of the same items. -/
theorem encodeItems_apart {items others : List Item} {rest after : List UInt8} (hitems : ∀ item ∈ items, item.Apart)
    (hothers : ∀ item ∈ others, item.Bounded) (hlength : items.length = others.length)
    (heq : encodeItems items ++ rest = encodeItems others ++ after) : items = others ∧ rest = after := by
  induction items generalizing others with
  | nil =>
    obtain rfl := List.length_eq_zero_iff.1 hlength.symm
    exact ⟨rfl, heq⟩
  | cons item items ih =>
    obtain ⟨other, others, rfl⟩ := List.exists_cons_of_length_eq_add_one hlength.symm
    rw [encodeItems, encodeItems, List.append_assoc, List.append_assoc] at heq
    obtain ⟨rfl, htail⟩ := hitems item (by simp) other _ _ (hothers other (by simp)) heq
    obtain ⟨rfl, rfl⟩ := ih (fun i hi => hitems i (by simp [hi])) (fun i hi => hothers i (by simp [hi]))
      (Nat.succ.inj hlength) htail
    exact ⟨rfl, rfl⟩

theorem flattened_inj {entries others : List (Item × Item)} (h : flattened entries = flattened others) :
    entries = others := by
  have hpairs := congrArg pairUp? h
  rw [pairUp?_flattened, pairUp?_flattened] at hpairs
  exact Option.some.inj hpairs

/-- Heads in front of any octets are apart. -/
theorem head_append_inj {major major' n n' : Nat} {rest after : List UInt8} (hmajor : major < 8) (hmajor' : major' < 8)
    (hn : n < 2 ^ 64) (hn' : n' < 2 ^ 64) (heq : head major n ++ rest = head major' n' ++ after) :
    major = major' ∧ n = n' ∧ rest = after := by
  have hread := congrArg takeHead? heq
  rw [takeHead?_head hmajor hn, takeHead?_head hmajor' hn'] at hread
  simp only [Option.some.injEq, Prod.mk.injEq, Head.mk.injEq] at hread
  obtain ⟨⟨hmajors, -, harguments⟩, hrest⟩ := hread
  exact ⟨hmajors, harguments, hrest⟩

/-- What has the form of an item with parts has parts. -/
theorem Item.Bounded.front?_eq_none {item other : Item} {rest after : List UInt8} (h : item.Bounded)
    (hother : other.Bounded) (hfront : item.front? = none) (heq : item.encode ++ rest = other.encode ++ after) :
    other.front? = none := by
  have hstep := congrArg (takeItem? 1 0) heq
  rw [h.takeItem?_one, hother.takeItem?_one, hfront] at hstep
  exact Option.map_eq_none_iff.1 hstep.symm

theorem Item.apart_array {items : List Item} (h : (Item.array items).Bounded) (hitems : ∀ item ∈ items, item.Apart) :
    (Item.array items).Apart := by
  intro other rest after hother heq
  have hfront := h.front?_eq_none hother rfl heq
  cases h with
  | array hlength _ =>
    cases hother with
    | array hlength' hothers =>
      rw [Item.encode, Item.encode, List.append_assoc, List.append_assoc] at heq
      obtain ⟨-, hcount, heq⟩ := head_append_inj (by decide) (by decide) hlength hlength' heq
      obtain ⟨rfl, rfl⟩ := encodeItems_apart hitems hothers hcount heq
      exact ⟨rfl, rfl⟩
    | map hlength' _ _ =>
      rw [Item.encode, Item.encode, List.append_assoc, List.append_assoc] at heq
      exact absurd (head_append_inj (by decide) (by decide) hlength hlength' heq).1 (by decide)
    | _ => cases hfront

theorem Item.apart_map {entries : List (Item × Item)} (h : (Item.map entries).Bounded)
    (hkeys : ∀ entry ∈ entries, entry.1.Apart) (hvalues : ∀ entry ∈ entries, entry.2.Apart) :
    (Item.map entries).Apart := by
  intro other rest after hother heq
  have hfront := h.front?_eq_none hother rfl heq
  cases h with
  | map hlength _ _ =>
    cases hother with
    | array hlength' _ =>
      rw [Item.encode, Item.encode, List.append_assoc, List.append_assoc] at heq
      exact absurd (head_append_inj (by decide) (by decide) hlength hlength' heq).1 (by decide)
    | map hlength' hkeys' hvalues' =>
      rw [Item.encode, Item.encode, ← encodeItems_flattened, ← encodeItems_flattened, List.append_assoc,
        List.append_assoc] at heq
      obtain ⟨-, hcount, heq⟩ := head_append_inj (by decide) (by decide) hlength hlength' heq
      obtain ⟨hflat, rfl⟩ := encodeItems_apart (forall_mem_flattened hkeys hvalues)
        (forall_mem_flattened hkeys' hvalues') (by rw [length_flattened, length_flattened, hcount]) heq
      rw [flattened_inj hflat]
      exact ⟨rfl, rfl⟩
    | _ => cases hfront

/-- The form of an item is apart from every other, by induction on the item: its first step tells whether it has parts,
and the parts are apart. -/
theorem Item.Bounded.apart {item : Item} (h : item.Bounded) : item.Apart := by
  induction h with
  | array hlength hitems ih => exact apart_array (.array hlength hitems) ih
  | map hlength hkeys hvalues ihkeys ihvalues => exact apart_map (.map hlength hkeys hvalues) ihkeys ihvalues
  | uint h => exact (Bounded.uint h).apart_of_front? rfl
  | nint h => exact (Bounded.nint h).apart_of_front? rfl
  | text hsize => exact (Bounded.text hsize).apart_of_front? rfl
  | float => exact Bounded.float.apart_of_front? rfl
  | bool => exact Bounded.bool.apart_of_front? rfl
  | null => exact Bounded.null.apart_of_front? rfl

/-- The canonical form determines the item. -/
theorem Item.Bounded.encode_inj {item other : Item} (h : item.Bounded) (hother : other.Bounded)
    (heq : item.encode = other.encode) : item = other :=
  (h.apart other [] [] hother (by rw [heq])).1

end Tenure.Cbor
