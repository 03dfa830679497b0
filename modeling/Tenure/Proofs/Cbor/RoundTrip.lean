import Tenure.Cbor.Decode
import Tenure.Proofs.Double.Encoding

/-!
# Reading what was written

A data item that is written in canonical form is read back as it is: `Item.Storable.decode?_encode`. An item can be
stored if its numbers and lengths fit in 64 bits, its texts are UTF-8, and its arrays and maps keep to the limits on
the number of elements and on nesting. The reader counts its steps; twice the number of octets is enough for them.
-/

set_option autoImplicit false

namespace Tenure.Cbor

/-! ## Heads -/

/-- The number that octets write after those of another number. -/
def extended (acc : Nat) (octets : List UInt8) : Nat := octets.foldl (fun n b => n * 256 + b.toNat) acc

theorem takeNat?_append (octets rest : List UInt8) (acc : Nat) :
    takeNat? octets.length acc (octets ++ rest) = some (extended acc octets, rest) := by
  induction octets generalizing acc with
  | nil => rfl
  | cons b octets ih => exact ih _

@[simp] theorem length_bigEndian (width n : Nat) : (bigEndian width n).length = width := by
  induction width generalizing n with
  | zero => rfl
  | succ width ih => simp [bigEndian, ih]

theorem extended_bigEndian (width n acc : Nat) :
    extended acc (bigEndian width n) = acc * 256 ^ width + n % 256 ^ width := by
  induction width generalizing n with
  | zero => simp [extended, bigEndian, Nat.mod_one]
  | succ width ih =>
    have hlast : ((n % 256).toUInt8).toNat = n % 256 := by simp
    have hsplit : extended acc (bigEndian width (n / 256) ++ [(n % 256).toUInt8]) =
        extended acc (bigEndian width (n / 256)) * 256 + n % 256 := by
      rw [extended, List.foldl_append]
      simp only [List.foldl_cons, List.foldl_nil, hlast]
      rfl
    rw [bigEndian, hsplit, ih, pow_succ, mul_comm (256 ^ width) 256, Nat.mod_mul]
    ring

/-- A number of a fixed width is read back. -/
theorem takeNat?_bigEndian {width n : Nat} (h : n < 256 ^ width) (rest : List UInt8) :
    takeNat? width 0 (bigEndian width n ++ rest) = some (n, rest) := by
  have hread := takeNat?_append (bigEndian width n) rest 0
  rwa [length_bigEndian, extended_bigEndian, zero_mul, zero_add, Nat.mod_eq_of_lt h] at hread

/-- The additional information of the shortest head of an argument. -/
def headInfo (n : Nat) : Nat :=
  if n < 24 then n else if n < 0x100 then 24 else if n < 0x10000 then 25 else if n < 0x100000000 then 26 else 27

theorem headInfo_lt (n : Nat) : headInfo n < 28 := by
  unfold headInfo
  split
  · omega
  split
  · omega
  split
  · omega
  split <;> omega

/-- A first octet and a number of a fixed width make up a head. -/
theorem takeHead?_wide {major width n : Nat} (hmajor : major < 8) (hwidth : width < 4) (hn : n < 256 ^ 2 ^ width)
    (rest : List UInt8) :
    takeHead? ((major * 32 + (24 + width)).toUInt8 :: bigEndian (2 ^ width) n ++ rest) =
      some (⟨major, 24 + width, n⟩, rest) := by
  have hfirst : ((major * 32 + (24 + width)).toUInt8).toNat = major * 32 + (24 + width) := by
    simp only [Nat.toUInt8_eq, UInt8.toNat_ofNat']
    omega
  have hdiv : (major * 32 + (24 + width)) / 32 = major := by omega
  have hmod : (major * 32 + (24 + width)) % 32 = 24 + width := by omega
  rw [List.cons_append, takeHead?]
  simp only [hfirst, hdiv, hmod]
  rw [if_neg (by omega), if_pos (by omega), Nat.add_sub_cancel_left, Nat.pow_eq, takeNat?_bigEndian hn]
  rfl

/-- A head is read back. -/
theorem takeHead?_head {major n : Nat} (hmajor : major < 8) (hn : n < 2 ^ 64) (rest : List UInt8) :
    takeHead? (head major n ++ rest) = some (⟨major, headInfo n, n⟩, rest) := by
  unfold head headInfo
  simp only
  split
  next hsmall =>
    have hfirst : ((major * 32 + n).toUInt8).toNat = major * 32 + n := by
      simp only [Nat.toUInt8_eq, UInt8.toNat_ofNat']
      omega
    have hdiv : (major * 32 + n) / 32 = major := by omega
    have hmod : (major * 32 + n) % 32 = n := by omega
    simp only [List.cons_append, List.nil_append, takeHead?, hfirst, hdiv, hmod, hsmall, if_true]
  split
  next h => exact @takeHead?_wide major 0 n hmajor (by omega) (by simpa using h) rest
  split
  next h => exact @takeHead?_wide major 1 n hmajor (by omega) (by simpa using h) rest
  split
  next h => exact @takeHead?_wide major 2 n hmajor (by omega) (by simpa using h) rest
  next => exact @takeHead?_wide major 3 n hmajor (by omega) (by simpa using hn) rest

theorem takeOctets?_append (octets rest : List UInt8) :
    takeOctets? octets.length (octets ++ rest) = some (octets, rest) := by
  simp [takeOctets?]

/-! ## Floating point numbers -/

/-- A head of the last major type is an item of its own. -/
theorem takeItem?_simple {octets rest : List UInt8} {info n : Nat} {item : Item}
    (hhead : takeHead? octets = some (⟨7, info, n⟩, rest)) (hitem : simpleItem? ⟨7, info, n⟩ = some item)
    (fuel room : Nat) : takeItem? (fuel + 1) room octets = some (item, rest) := by
  simp only [takeItem?, hhead, hitem, Option.bind_eq_bind, Option.bind_some]

/-- A floating point number is read back, in whichever width it was written. -/
theorem takeItem?_encodeFloat (x : Float) (fuel room : Nat) (rest : List UInt8) :
    takeItem? (fuel + 1) room (encodeFloat x ++ rest) = some (.float x, rest) := by
  unfold encodeFloat
  cases hvalue : Double.value x with
  | nan =>
    have hx : Double.ofValue (Double.Format.half.decode 5 0x7e00) = x := by
      rw [Double.eq_nan_of_value hvalue]
      rfl
    refine takeItem?_simple (@takeHead?_wide 7 1 0x7e00 (by decide) (by decide) (by decide) rest) ?_ fuel room
    simp [simpleItem?, hx]
  | infinite negative =>
    have hx : Double.ofValue (.infinite negative) = x := by
      rw [← hvalue, Double.ofValue_value]
    cases negative with
    | false =>
      refine takeItem?_simple (@takeHead?_wide 7 1 0x7c00 (by decide) (by decide) (by decide) rest) ?_ fuel room
      exact congrArg (some ∘ Item.float) hx
    | true =>
      refine takeItem?_simple (@takeHead?_wide 7 1 0xfc00 (by decide) (by decide) (by decide) rest) ?_ fuel room
      exact congrArg (some ∘ Item.float) hx
  | finite negative m e =>
    -- The widths are tried from the narrowest; an exact encoding in any of them stands for the same number.
    simp only
    split
    next bits hhalf =>
      obtain ⟨hbits, n, g, hdecode, heq⟩ := Double.Format.decode_of_exact (by decide) hhalf
      have hx : Double.ofValue (Double.Format.half.decode 5 bits) = x := hdecode ▸ Double.ofValue_of_eq hvalue heq
      refine takeItem?_simple (@takeHead?_wide 7 1 bits (by decide) (by decide) hbits rest) ?_ fuel room
      simp [simpleItem?, hx]
    split
    next bits hsingle =>
      obtain ⟨hbits, n, g, hdecode, heq⟩ := Double.Format.decode_of_exact (by decide) hsingle
      have hx : Double.ofValue (Double.Format.single.decode 8 bits) = x := hdecode ▸ Double.ofValue_of_eq hvalue heq
      refine takeItem?_simple (@takeHead?_wide 7 2 bits (by decide) (by decide) hbits rest) ?_ fuel room
      simp [simpleItem?, hx]
    next =>
      have hx : Double.ofValue (Double.Format.double.decode 11 x.toBits.toNat) = x := Double.ofValue_value x
      refine takeItem?_simple
        (@takeHead?_wide 7 3 x.toBits.toNat (by decide) (by decide) x.toBits.toNat_lt rest) ?_ fuel room
      simp [simpleItem?, hx]

/-! ## Items -/

/-- An item that the reader accepts in canonical form when so many levels may still open. -/
inductive Item.Storable : Nat → Item → Prop where
  | uint {room n : Nat} (h : n < 2 ^ 64) : Storable room (.uint n)
  | nint {room n : Nat} (h : n < 2 ^ 64) : Storable room (.nint n)
  | text {room : Nat} {t : Text} (hsize : t.size < 2 ^ 64) (hutf8 : t.isUtf8 = true) : Storable room (.text t)
  | array {room : Nat} {items : List Item} (hlength : items.length ≤ maxElements)
      (hitems : ∀ item ∈ items, Storable room item) : Storable (room + 1) (.array items)
  | map {room : Nat} {entries : List (Item × Item)} (hlength : entries.length ≤ maxElements)
      (hkeys : ∀ entry ∈ entries, Storable room entry.1) (hvalues : ∀ entry ∈ entries, Storable room entry.2) :
      Storable (room + 1) (.map entries)
  | float {room : Nat} {x : Float} : Storable room (.float x)
  | bool {room : Nat} {b : Bool} : Storable room (.bool b)

/-- An item is read back from the front of any octets, given steps for its own octets. -/
def Item.Reads (room : Nat) (item : Item) : Prop :=
  ∀ (fuel : Nat) (rest : List UInt8), 2 * item.encode.length ≤ fuel + 1 →
    takeItem? fuel room (item.encode ++ rest) = some (item, rest)

theorem one_le_length_head (major n : Nat) : 1 ≤ (head major n).length := by
  unfold head
  simp only
  split_ifs <;> simp

theorem one_le_length_encodeFloat (x : Float) : 1 ≤ (encodeFloat x).length := by
  unfold encodeFloat
  split
  · simp
  · simp
  · split
    · simp
    · split <;> simp

theorem Item.one_le_length_encode (item : Item) : 1 ≤ item.encode.length := by
  have append (a b : List UInt8) (h : 1 ≤ a.length) : 1 ≤ (a ++ b).length := by
    rw [List.length_append]
    omega
  cases item with
  | uint n | nint n | simple n => exact one_le_length_head _ n
  | float x => exact one_le_length_encodeFloat x
  | bool b => exact le_rfl
  | null | undefined => exact le_rfl
  | bytes octets | text t | garbled octets | array items | map entries | tag number item =>
    rw [Item.encode]
    exact append _ _ (one_le_length_head _ _)

/-- Enough steps for an item are at least one. -/
theorem exists_fuel {item : Item} {fuel : Nat} (h : 2 * item.encode.length ≤ fuel + 1) :
    ∃ n, fuel = n + 1 := by
  have := item.one_le_length_encode
  exact ⟨fuel - 1, by omega⟩

/-- Items in a row are read back one after the other. -/
theorem takeItems?_encodeItems {room : Nat} {items : List Item} (hitems : ∀ item ∈ items, item.Reads room)
    (fuel : Nat) (acc : List Item) (rest : List UInt8) (hfuel : 2 * (encodeItems items).length ≤ fuel) :
    takeItems? fuel room items.length acc (encodeItems items ++ rest) = some (acc.reverse ++ items, rest) := by
  induction items generalizing fuel acc with
  | nil => simp [encodeItems, takeItems?]
  | cons item items ih =>
    have hone := item.one_le_length_encode
    rw [encodeItems, List.length_append] at hfuel
    -- One step goes to the row and the item has an octet at least, so two steps for each octet leave enough.
    obtain ⟨fuel, rfl⟩ : ∃ n, fuel = n + 1 := ⟨fuel - 1, by omega⟩
    have hfirst := hitems item (by simp) fuel (encodeItems items ++ rest) (by omega)
    have hrest := ih (fun i hi => hitems i (by simp [hi])) fuel (item :: acc) (by omega)
    rw [encodeItems, List.length_cons, List.append_assoc, takeItems?]
    simp [hfirst, hrest]

/-- The keys and values of a map, in the order of its octets. -/
def flattened (entries : List (Item × Item)) : List Item := entries.flatMap fun entry => [entry.1, entry.2]

theorem length_flattened (entries : List (Item × Item)) : (flattened entries).length = 2 * entries.length := by
  induction entries with
  | nil => rfl
  | cons entry entries ih =>
    simp only [flattened, List.flatMap_cons, List.length_append, List.length_cons, List.length_nil] at ih ⊢
    omega

theorem forall_mem_flattened {P : Item → Prop} {entries : List (Item × Item)} (hkeys : ∀ entry ∈ entries, P entry.1)
    (hvalues : ∀ entry ∈ entries, P entry.2) : ∀ item ∈ flattened entries, P item := by
  intro item hitem
  obtain ⟨entry, hentry, hmem⟩ := List.mem_flatMap.1 hitem
  rw [List.mem_cons, List.mem_singleton] at hmem
  rcases hmem with rfl | rfl
  · exact hkeys entry hentry
  · exact hvalues entry hentry

theorem encodeItems_flattened (entries : List (Item × Item)) :
    encodeItems (flattened entries) = encodeEntries entries := by
  induction entries with
  | nil => rfl
  | cons entry entries ih =>
    obtain ⟨key, value⟩ := entry
    rw [encodeEntries, ← ih, List.append_assoc]
    rfl

theorem pairUp?_flattened (entries : List (Item × Item)) : pairUp? (flattened entries) = some entries := by
  induction entries with
  | nil => rfl
  | cons entry entries ih =>
    show (pairUp? (flattened entries)).bind (fun pairs => some (entry :: pairs)) = _
    rw [ih, Option.bind_some]

/-! Items without parts take one step. -/

theorem takeItem?_uint {n : Nat} (h : n < 2 ^ 64) (fuel room : Nat) (rest : List UInt8) :
    takeItem? (fuel + 1) room ((Item.uint n).encode ++ rest) = some (.uint n, rest) := by
  have hinfo := headInfo_lt n
  rw [Item.encode, takeItem?, takeHead?_head (by decide) h]
  simp only [Option.bind_eq_bind, Option.bind_some]
  rw [if_neg (by omega)]

theorem takeItem?_nint {n : Nat} (h : n < 2 ^ 64) (fuel room : Nat) (rest : List UInt8) :
    takeItem? (fuel + 1) room ((Item.nint n).encode ++ rest) = some (.nint n, rest) := by
  have hinfo := headInfo_lt n
  rw [Item.encode, takeItem?, takeHead?_head (by decide) h]
  simp only [Option.bind_eq_bind, Option.bind_some]
  rw [if_neg (by omega)]

theorem takeItem?_text {t : Text} (hsize : t.size < 2 ^ 64) (fuel room : Nat) (rest : List UInt8) :
    takeItem? (fuel + 1) room ((Item.text t).encode ++ rest) = some (textItem [t.octets], rest) := by
  have hinfo := headInfo_lt t.size
  rw [Item.encode, List.append_assoc, takeItem?, takeHead?_head (by decide) hsize]
  simp only [Option.bind_eq_bind, Option.bind_some]
  rw [if_neg (by omega), Text.size, takeOctets?_append, Option.bind_some]

theorem takeItem?_float (x : Float) (fuel room : Nat) (rest : List UInt8) :
    takeItem? (fuel + 1) room ((Item.float x).encode ++ rest) = some (.float x, rest) := by
  rw [Item.encode, takeItem?_encodeFloat]

theorem takeItem?_bool (b : Bool) (fuel room : Nat) (rest : List UInt8) :
    takeItem? (fuel + 1) room ((Item.bool b).encode ++ rest) = some (.bool b, rest) := by
  cases b with
  | false => exact @takeItem?_simple _ rest 20 20 (.bool false) rfl rfl fuel room
  | true => exact @takeItem?_simple _ rest 21 21 (.bool true) rfl rfl fuel room

theorem takeItem?_null (fuel room : Nat) (rest : List UInt8) :
    takeItem? (fuel + 1) room (Item.null.encode ++ rest) = some (.null, rest) :=
  @takeItem?_simple _ rest 22 22 .null rfl rfl fuel room

/-- An item that takes one step is read back. -/
theorem Item.reads_of_step {room : Nat} {item : Item}
    (hstep : ∀ fuel rest, takeItem? (fuel + 1) room (item.encode ++ rest) = some (item, rest)) : item.Reads room := by
  intro fuel rest hfuel
  obtain ⟨fuel, rfl⟩ := exists_fuel hfuel
  exact hstep fuel rest

/-- A text that is UTF-8, in one part. -/
theorem textItem_of_isUtf8 {t : Text} (hutf8 : t.isUtf8 = true) : textItem [t.octets] = .text t := by
  simp [textItem, hutf8]

theorem Item.reads_array {room : Nat} {items : List Item} (hlength : items.length ≤ maxElements)
    (hitems : ∀ item ∈ items, item.Reads room) : (Item.array items).Reads (room + 1) := by
  intro fuel rest hfuel
  obtain ⟨fuel, rfl⟩ := exists_fuel hfuel
  have hhead := one_le_length_head 4 items.length
  have hinfo := headInfo_lt items.length
  rw [Item.encode, List.length_append] at hfuel
  have hread := takeItems?_encodeItems hitems fuel [] rest (by omega)
  rw [Item.encode, List.append_assoc, takeItem?,
    takeHead?_head (by decide) (by unfold maxElements at hlength; omega)]
  simp only [Option.bind_eq_bind, Option.bind_some]
  rw [if_neg (by omega), if_neg (by omega), if_neg (by omega), Nat.add_sub_cancel, hread]
  rfl

theorem Item.reads_map {room : Nat} {entries : List (Item × Item)} (hlength : entries.length ≤ maxElements)
    (hkeys : ∀ entry ∈ entries, entry.1.Reads room) (hvalues : ∀ entry ∈ entries, entry.2.Reads room) :
    (Item.map entries).Reads (room + 1) := by
  intro fuel rest hfuel
  obtain ⟨fuel, rfl⟩ := exists_fuel hfuel
  have hhead := one_le_length_head 5 entries.length
  have hinfo := headInfo_lt entries.length
  -- A map is read as a row of keys and values in turn, which are paired up afterwards.
  have hitems : ∀ item ∈ flattened entries, item.Reads room := forall_mem_flattened hkeys hvalues
  rw [Item.encode, List.length_append, ← encodeItems_flattened] at hfuel
  have hread := takeItems?_encodeItems hitems fuel [] rest (by omega)
  rw [length_flattened] at hread
  rw [Item.encode, ← encodeItems_flattened, List.append_assoc, takeItem?,
    takeHead?_head (by decide) (by unfold maxElements at hlength; omega)]
  simp only [Option.bind_eq_bind, Option.bind_some]
  rw [if_neg (by omega), if_neg (by omega), if_neg (by omega), Nat.add_sub_cancel, hread]
  simp [pairUp?_flattened]

/-- Every item that can be stored is read back. -/
theorem Item.Storable.reads {room : Nat} {item : Item} (h : item.Storable room) : item.Reads room := by
  induction h with
  | @uint room _ h => exact reads_of_step fun fuel rest => takeItem?_uint h fuel room rest
  | @nint room _ h => exact reads_of_step fun fuel rest => takeItem?_nint h fuel room rest
  | @text room _ hsize hutf8 =>
    refine reads_of_step fun fuel rest => ?_
    rw [takeItem?_text hsize fuel room rest, textItem_of_isUtf8 hutf8]
  | array hlength _ ih => exact reads_array hlength ih
  | map hlength _ _ ihkeys ihvalues => exact reads_map hlength ihkeys ihvalues
  | @float room x => exact reads_of_step fun fuel rest => takeItem?_float x fuel room rest
  | @bool room b => exact reads_of_step fun fuel rest => takeItem?_bool b fuel room rest

/-- What is written of an item that can be stored is the form of that item. -/
theorem Item.Storable.decode?_encode {item : Item} (h : item.Storable maxNesting) :
    decode? item.encode = some item := by
  have hread := h.reads (2 * item.encode.length + 2) [] (by omega)
  rw [List.append_nil] at hread
  rw [decode?, hread]
  rfl

end Tenure.Cbor
