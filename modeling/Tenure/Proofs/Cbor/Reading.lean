import Tenure.Proofs.Cbor.RoundTrip

/-!
# What the reader makes of canonical octets

The reader may refuse an item in canonical form, because it is nested too deep or has too many elements. If it accepts
one, it reads that item and no other, with texts that are not UTF-8 told apart: `Item.Bounded.decode?_encode`. All that
is asked of the item is that its numbers and lengths fit in 64 bits.
-/

set_option autoImplicit false

namespace Tenure.Cbor

mutual

/-- What the reader makes of an item: texts that are not UTF-8 are told apart. -/
def Item.received : Item → Item
  | .text t => textItem [t.octets]
  | .array items => .array (receivedItems items)
  | .map entries => .map (receivedEntries entries)
  | item => item

/-- What the reader makes of items in a row. -/
def receivedItems : List Item → List Item
  | [] => []
  | item :: rest => item.received :: receivedItems rest

/-- What the reader makes of the entries of a map. -/
def receivedEntries : List (Item × Item) → List (Item × Item)
  | [] => []
  | (key, value) :: rest => (key.received, value.received) :: receivedEntries rest

end

theorem receivedItems_eq_map (items : List Item) : receivedItems items = items.map Item.received := by
  induction items with
  | nil => rfl
  | cons item items ih => rw [receivedItems, ih, List.map_cons]

theorem receivedEntries_eq_map (entries : List (Item × Item)) :
    receivedEntries entries = entries.map fun entry => (entry.1.received, entry.2.received) := by
  induction entries with
  | nil => rfl
  | cons entry entries ih => rw [receivedEntries, ih, List.map_cons]

theorem map_received_flattened (entries : List (Item × Item)) :
    (flattened entries).map Item.received = flattened (receivedEntries entries) := by
  induction entries with
  | nil => rfl
  | cons entry entries ih =>
    rw [receivedEntries, flattened, flattened, List.flatMap_cons, List.flatMap_cons, List.map_append]
    exact congrArg _ ih

/-- An item whose numbers and lengths fit in 64 bits. -/
inductive Item.Bounded : Item → Prop where
  | uint {n : Nat} (h : n < 2 ^ 64) : Bounded (.uint n)
  | nint {n : Nat} (h : n < 2 ^ 64) : Bounded (.nint n)
  | text {t : Text} (hsize : t.size < 2 ^ 64) : Bounded (.text t)
  | array {items : List Item} (hlength : items.length < 2 ^ 64) (hitems : ∀ item ∈ items, Bounded item) :
      Bounded (.array items)
  | map {entries : List (Item × Item)} (hlength : entries.length < 2 ^ 64)
      (hkeys : ∀ entry ∈ entries, Bounded entry.1) (hvalues : ∀ entry ∈ entries, Bounded entry.2) :
      Bounded (.map entries)
  | float {x : Float} : Bounded (.float x)
  | bool {b : Bool} : Bounded (.bool b)
  | null : Bounded .null

theorem Item.bounded_ofInt {n : Int} (hlow : -2 ^ 64 ≤ n) (hhigh : n < 2 ^ 64) : (Item.ofInt n).Bounded := by
  cases n with
  | ofNat n =>
    rw [Int.ofNat_eq_natCast] at hhigh
    exact .uint (by omega)
  | negSucc n => exact .nint (by omega)

/-- Whatever is read from the front of the octets of an item is that item, and nothing more is taken. -/
def Item.Yields (item : Item) : Prop :=
  ∀ (fuel room : Nat) (rest : List UInt8) (read : Item) (after : List UInt8),
    takeItem? fuel room (item.encode ++ rest) = some (read, after) → read = item.received ∧ after = rest

theorem Item.yields_of_step {item : Item}
    (hstep : ∀ fuel room rest, takeItem? (fuel + 1) room (item.encode ++ rest) = some (item.received, rest)) :
    item.Yields := by
  intro fuel room rest read after htake
  cases fuel with
  | zero => simp [takeItem?] at htake
  | succ fuel =>
    rw [hstep] at htake
    cases htake
    exact ⟨rfl, rfl⟩

/-- Whatever is read as a row of items from the front of their octets are these items. -/
theorem takeItems?_yields {items : List Item} (hitems : ∀ item ∈ items, item.Yields) {fuel room : Nat}
    {acc read : List Item} {rest after : List UInt8}
    (htake : takeItems? fuel room items.length acc (encodeItems items ++ rest) = some (read, after)) :
    read = acc.reverse ++ items.map Item.received ∧ after = rest := by
  induction items generalizing fuel acc with
  | nil =>
    rw [List.length_nil, takeItems?] at htake
    cases htake
    simp [encodeItems]
  | cons item items ih =>
    cases fuel with
    | zero => simp [takeItems?] at htake
    | succ fuel =>
      rw [encodeItems, List.length_cons, List.append_assoc, takeItems?, Option.bind_eq_bind,
        Option.bind_eq_some_iff] at htake
      obtain ⟨⟨first, remaining⟩, hfirst, hrest⟩ := htake
      obtain ⟨rfl, rfl⟩ := hitems item (by simp) _ _ _ _ _ hfirst
      obtain ⟨rfl, rfl⟩ := ih (fun i hi => hitems i (by simp [hi])) hrest
      simp

theorem Item.yields_array {items : List Item} (hlength : items.length < 2 ^ 64) (hitems : ∀ item ∈ items, item.Yields) :
    (Item.array items).Yields := by
  intro fuel room rest read after htake
  cases fuel with
  | zero => simp [takeItem?] at htake
  | succ fuel =>
    have hinfo := headInfo_lt items.length
    rw [Item.encode, List.append_assoc, takeItem?, takeHead?_head (by decide) hlength] at htake
    simp only [Option.bind_eq_bind, Option.bind_some] at htake
    rw [if_neg (by omega : headInfo items.length ≠ 31)] at htake
    split_ifs at htake
    obtain ⟨⟨elements, remaining⟩, htake, heq⟩ := Option.bind_eq_some_iff.1 htake
    obtain ⟨rfl, rfl⟩ := takeItems?_yields hitems htake
    cases heq
    rw [received, receivedItems_eq_map]
    exact ⟨rfl, rfl⟩

theorem Item.yields_map {entries : List (Item × Item)} (hlength : entries.length < 2 ^ 64)
    (hkeys : ∀ entry ∈ entries, entry.1.Yields) (hvalues : ∀ entry ∈ entries, entry.2.Yields) :
    (Item.map entries).Yields := by
  intro fuel room rest read after htake
  cases fuel with
  | zero => simp [takeItem?] at htake
  | succ fuel =>
    have hinfo := headInfo_lt entries.length
    have hitems : ∀ item ∈ flattened entries, item.Yields := forall_mem_flattened hkeys hvalues
    rw [Item.encode, ← encodeItems_flattened, List.append_assoc, takeItem?,
      takeHead?_head (by decide) hlength] at htake
    simp only [Option.bind_eq_bind, Option.bind_some] at htake
    rw [if_neg (by omega : headInfo entries.length ≠ 31)] at htake
    split_ifs at htake
    obtain ⟨⟨elements, remaining⟩, htake, heq⟩ := Option.bind_eq_some_iff.1 htake
    rw [← length_flattened] at htake
    obtain ⟨rfl, rfl⟩ := takeItems?_yields hitems htake
    rw [List.reverse_nil, List.nil_append, map_received_flattened, pairUp?_flattened] at heq
    cases heq
    exact ⟨by rw [received], rfl⟩

theorem Item.Bounded.yields {item : Item} (h : item.Bounded) : item.Yields := by
  induction h with
  | uint h => exact yields_of_step (takeItem?_uint h)
  | nint h => exact yields_of_step (takeItem?_nint h)
  | text hsize =>
    refine yields_of_step fun fuel room rest => ?_
    rw [received]
    exact takeItem?_text hsize fuel room rest
  | array hlength _ ih => exact yields_array hlength ih
  | map hlength _ _ ihkeys ihvalues => exact yields_map hlength ihkeys ihvalues
  | @float x => exact yields_of_step (takeItem?_float x)
  | @bool b => exact yields_of_step (takeItem?_bool b)
  | null => exact yields_of_step takeItem?_null

/-- What is read from the octets of an item, if anything is, is that item with its texts told apart. -/
theorem Item.Bounded.decode?_encode {item read : Item} (h : item.Bounded) (hread : decode? item.encode = some read) :
    read = item.received := by
  rw [decode?, Option.bind_eq_bind, Option.bind_eq_some_iff] at hread
  obtain ⟨⟨first, rest⟩, htake, hlast⟩ := hread
  rw [← List.append_nil item.encode] at htake
  obtain ⟨rfl, rfl⟩ := h.yields _ _ _ _ _ htake
  exact (Option.some.inj hlast).symm

/-- The reader keeps an item that can be stored as it is. -/
theorem Item.Storable.received_eq {room : Nat} {item : Item} (h : item.Storable room) : item.received = item := by
  induction h with
  | uint | nint | float | bool => rfl
  | text hsize hutf8 => rw [received, textItem_of_isUtf8 hutf8]
  | array _ _ ih =>
    rw [received, receivedItems_eq_map, List.map_congr_left ih, List.map_id']
  | map _ _ _ ihkeys ihvalues =>
    rw [received, receivedEntries_eq_map,
      List.map_congr_left fun entry hentry => Prod.ext (ihkeys entry hentry) (ihvalues entry hentry), List.map_id']

end Tenure.Cbor
