import Tenure.Proofs.Cbor.Reading
import Tenure.Proofs.Code.RoundTrip

/-!
# What is loaded from an image

An image of a program need not load: a text in it may not be UTF-8, or the program may be longer than the reader
allows. If it does load, the program is the one that was written, with its doubles reloaded:
`Image.eq_of_decode_encode`.
-/

set_option autoImplicit false

namespace Tenure

open Cbor

/-- A literal whose integer is a word and whose text has a length of 64 bits. -/
structure Literal.IsWritable (l : Literal) : Prop where
  int : IsWord l.int
  str : l.str.size < 2 ^ 64

/-- An instruction whose integers are words and whose texts have lengths of 64 bits. -/
structure Instr.IsWritable (i : Instr) : Prop where
  val : i.val.IsWritable
  pos : i.pos.IsStorable
  addr : IsWord i.addr
  arity : IsWord i.arity
  num : IsWord i.num
  sym : i.sym.size < 2 ^ 64

theorem Literal.IsWritable.storable {l : Literal} (h : l.IsWritable) (hstr : l.str.isUtf8 = true) : l.IsStorable :=
  ⟨h.int, h.str, hstr⟩

theorem Instr.IsWritable.storable {i : Instr} (h : i.IsWritable) (hval : i.val.str.isUtf8 = true)
    (hsym : i.sym.isUtf8 = true) : i.IsStorable :=
  ⟨h.val.storable hval, h.pos, h.addr, h.arity, h.num, h.sym, hsym⟩

namespace Image

/-! ## What is written -/

theorem bounded_ofInt {n : Int} (h : IsWord n) : (Item.ofInt n).Bounded := by
  obtain ⟨hlow, hhigh⟩ := h
  exact Item.bounded_ofInt (by omega) (by omega)

theorem bounded_octet (b : UInt8) : (Item.uint b.toNat).Bounded := .uint (b.toNat_lt.trans (by decide))

namespace Field

/-- A field as the reader finds it. -/
def received (f : Field) : Field := { f with item := f.item.received }

theorem received_entries (fields : List Field) :
    (Item.map (entries fields)).received = .map (entries (fields.map received)) := by
  rw [Item.received]
  congr 1
  induction fields with
  | nil => rfl
  | cons f fields ih =>
    rw [entries_cons, List.map_cons, entries_cons, received]
    split
    · exact ih
    · rw [receivedEntries, ih]
      rfl

/-- A map of fields is bounded if every field is. -/
theorem bounded {fields : List Field} (hlength : fields.length < 2 ^ 64) (hnumber : ∀ f ∈ fields, f.number < 2 ^ 64)
    (hitem : ∀ f ∈ fields, f.item.Bounded) : (Item.map (entries fields)).Bounded := by
  have hmem : ∀ entry ∈ entries fields, ∃ f ∈ fields, entry = (.uint f.number, f.item) := by
    intro entry hentry
    obtain ⟨f, hf, hmem⟩ := List.mem_flatMap.1 hentry
    cases hzero : f.isZero with
    | true => simp [optional, hzero] at hmem
    | false => exact ⟨f, hf, by simpa [optional, hzero] using hmem⟩
  refine .map ((length_entries_le fields).trans_lt hlength) (fun entry hentry => ?_) fun entry hentry => ?_
  · obtain ⟨f, hf, rfl⟩ := hmem entry hentry
    exact .uint (hnumber f hf)
  · obtain ⟨f, hf, rfl⟩ := hmem entry hentry
    exact hitem f hf

section

variable {fields : List Field} (n : Nat) (hnodup : (fields.map number).Nodup)
include hnodup

/-- A field that is never left out is read from what the reader made of its item. -/
theorem read_received {α : Type} {zero : α} {of : Item → Option α} {item : Item} (hf : always n item ∈ fields) :
    (written (fields.map received)).read n zero of = of item.received := by
  have hnodup' : ((fields.map received).map number).Nodup := by rwa [List.map_map]
  have hfound := numbered?_written hnodup' (List.mem_map_of_mem hf)
  rw [Record.read, show (n : Int) = ((received (always n item)).number : Int) from rfl, hfound]
  rfl

/-- A text that is not UTF-8 is not read back. -/
theorem read_garbled {t : Text} (hf : ⟨n, t.isEmpty, .text t⟩ ∈ fields) (ht : t.isUtf8 = false) :
    (written (fields.map received)).read n ∅ Item.text? = none := by
  have hnodup' : ((fields.map received).map number).Nodup := by rwa [List.map_map]
  have hnonempty : t.isEmpty = false := by
    cases hempty : t.isEmpty with
    | false => rfl
    | true =>
      obtain rfl : t = Text.mk [] := congrArg Text.mk (List.isEmpty_iff.1 hempty)
      exact ht
  have hitem : (Item.text t).received = .garbled t.octets := by
    rw [Item.received]
    simp [textItem, ht]
  have hfound := numbered?_written hnodup' (List.mem_map_of_mem hf)
  rw [Record.read, show (n : Int) = ((received ⟨n, t.isEmpty, .text t⟩).number : Int) from rfl, hfound]
  simp only [received, hnonempty, hitem]
  rfl

end

end Field

/-! ## Records -/

theorem bounded_ofLiteral {l : Literal} (h : l.IsWritable) : (ofLiteral l).Bounded := by
  rw [ofLiteral_eq]
  refine Field.bounded (Nat.le_of_ble_eq_true rfl) (by simp [literalFields, Field.always]) ?_
  simp only [literalFields, List.forall_mem_cons, List.not_mem_nil, false_imp_iff, implies_true, and_true]
  exact ⟨bounded_octet _, bounded_ofInt h.int, .float, .bool, .text h.str⟩

theorem toLiteral?_garbled {l : Literal} (h : l.str.isUtf8 = false) : toLiteral? (ofLiteral l).received = none := by
  have hnodup : ((literalFields l).map Field.number).Nodup := by
    show [1, 2, 3, 4, 5].Nodup
    decide
  have hstr : (Field.written ((literalFields l).map Field.received)).read 5 ∅ Item.text? = none :=
    Field.read_garbled 5 hnodup (by simp [literalFields]) h
  rw [toLiteral?, ofLiteral_eq, Field.received_entries, Field.ofItem?_entries]
  simp [hstr]

theorem bounded_ofPosition {p : Position} (h : p.IsStorable) : (ofPosition p).Bounded := by
  rw [ofPosition_eq]
  refine Field.bounded (Nat.le_of_ble_eq_true rfl) (by simp [positionFields, Field.always]) ?_
  simp only [positionFields, List.forall_mem_cons, List.not_mem_nil, false_imp_iff, implies_true, and_true]
  exact ⟨bounded_ofInt h.frame, bounded_ofInt h.slot⟩

theorem bounded_ofInstr {i : Instr} (h : i.IsWritable) : (ofInstr i).Bounded := by
  rw [ofInstr_eq]
  refine Field.bounded (Nat.le_of_ble_eq_true rfl) (by simp [instrFields, Field.always]) ?_
  simp only [instrFields, List.forall_mem_cons, List.not_mem_nil, false_imp_iff, implies_true, and_true]
  exact ⟨bounded_octet _, bounded_ofLiteral h.val, bounded_ofPosition h.pos, bounded_ofInt h.addr,
    bounded_ofInt h.arity, bounded_ofInt h.num, .text h.sym, .bool⟩

/-- Whatever is read as an instruction is the one that was written. -/
theorem eq_of_toInstr? {i j : Instr} (h : i.IsWritable) (hj : toInstr? (ofInstr i).received = some j) :
    j = i.reloaded := by
  have hnodup : ((instrFields i).map Field.number).Nodup := by
    show [1, 2, 3, 4, 5, 6, 7, 8].Nodup
    decide
  cases hval : i.val.str.isUtf8 with
  | false =>
    have hread : (Field.written ((instrFields i).map Field.received)).read 2 {} toLiteral? = none :=
      (Field.read_received 2 hnodup (by simp [instrFields])).trans (toLiteral?_garbled hval)
    rw [toInstr?, ofInstr_eq, Field.received_entries, Field.ofItem?_entries] at hj
    simp [hread] at hj
  | true =>
    cases hsym : i.sym.isUtf8 with
    | false =>
      have hread : (Field.written ((instrFields i).map Field.received)).read 7 ∅ Item.text? = none :=
        Field.read_garbled 7 hnodup (by simp [instrFields]) hsym
      rw [toInstr?, ofInstr_eq, Field.received_entries, Field.ofItem?_entries] at hj
      simp [hread] at hj
    | true =>
      have hstorable := h.storable hval hsym
      have hreceived : (ofInstr i).received = ofInstr i :=
        (storable_ofInstr hstorable : (ofInstr i).Storable 2).received_eq
      rw [hreceived, toInstr?_ofInstr hstorable] at hj
      exact (Option.some.inj hj).symm

/-! ## Programs -/

theorem eq_of_toInstrs? {p q : Program} (h : ∀ i ∈ p, i.IsWritable)
    (hq : toInstrs? (Item.array (p.map ofInstr)).received = some q) : q = p.map Instr.reloaded := by
  rw [Item.received, receivedItems_eq_map, List.map_map] at hq
  change (p.map (Item.received ∘ ofInstr)).mapM toInstr? = some q at hq
  induction p generalizing q with
  | nil => exact (Option.some.inj hq).symm
  | cons i p ih =>
    rw [List.map_cons, List.mapM_cons, Option.bind_eq_bind, Option.bind_eq_some_iff] at hq
    obtain ⟨j, hj, hq⟩ := hq
    obtain ⟨rest, hrest, heq⟩ := Option.bind_eq_some_iff.1 hq
    cases heq
    rw [List.map_cons, eq_of_toInstr? (h i List.mem_cons_self) hj,
      ih (fun k hk => h k (List.mem_cons_of_mem i hk)) hrest]

theorem bounded_ofProgram {p : Program} (hlength : p.length < 2 ^ 64) (h : ∀ i ∈ p, i.IsWritable) :
    (ofProgram p).Bounded := by
  have hcode : (Item.array (p.map ofInstr)).Bounded := by
    refine .array (by simpa using hlength) fun item hitem => ?_
    obtain ⟨i, hi, rfl⟩ := List.mem_map.1 hitem
    exact bounded_ofInstr (h i hi)
  rw [ofProgram_eq]
  refine Field.bounded (Nat.le_of_ble_eq_true rfl) (by simp [programFields, Field.always]) ?_
  simp only [programFields, List.forall_mem_cons, List.not_mem_nil, false_imp_iff, implies_true, and_true]
  exact ⟨.text (by decide), .uint (by decide), hcode⟩

/-- Whatever is loaded from the image of a program is that program with its doubles reloaded. -/
theorem eq_of_decode_encode {p q : Program} (hlength : p.length < 2 ^ 64) (h : ∀ i ∈ p, i.IsWritable)
    (hq : decode (encode p) = .ok q) : q = p.map Instr.reloaded := by
  have hnodup : ((programFields p).map Field.number).Nodup := by
    show [1, 2, 3].Nodup
    decide
  have hprogram : (Field.written ((programFields p).map Field.received)).read 3 [] toInstrs? =
      toInstrs? (Item.array (p.map ofInstr)).received := Field.read_received 3 hnodup (by simp [programFields])
  unfold decode at hq
  split at hq
  next => cases hq
  next raw hraw =>
    obtain ⟨item, hitem, hraw⟩ := Option.bind_eq_some_iff.1 hraw
    obtain rfl := (bounded_ofProgram hlength h).decode?_encode hitem
    rw [toRaw?, ofProgram_eq, Field.received_entries, Field.ofItem?_entries] at hraw
    simp only [Option.bind_eq_bind, Option.bind_some, Option.bind_eq_some_iff] at hraw
    obtain ⟨magic, -, version, -, program, hread, heq⟩ := hraw
    cases heq
    rw [hprogram] at hread
    obtain rfl := eq_of_toInstrs? h hread
    split_ifs at hq
    split at hq
    · cases hq
    · exact (Except.ok.inj hq).symm

end Image

end Tenure
