import Tenure.Code.Image
import Tenure.Proofs.Cbor.RoundTrip

/-!
# Images are read back

The image of a program that passes the check loads as that program, and the image of any other program fails with the
defect of its first defective instruction: `Image.decode_encode`. Every integer of an instruction has 64 bits and every
text is UTF-8. Two doubles change on the way, a negative zero, which is left out like any other zero, and what is not a
number, of which there is one form.

A record is written as a list of fields, of which those with their zero value are left out. One statement about such
lists, `Image.Field.read_written`, serves literals, positions, instructions and whole images.
-/

set_option autoImplicit false

namespace Tenure

open Cbor

/-! ## What an image can hold -/

/-- The double that a double of an image is loaded as. -/
def Double.reloaded (x : Float) : Float :=
  if x = zero true then zero false else if value x = .nan then nan else x

/-- The literal that a literal of an image is loaded as. -/
def Literal.reloaded (l : Literal) : Literal := { l with float := Double.reloaded l.float }

/-- The instruction that an instruction of an image is loaded as. -/
def Instr.reloaded (i : Instr) : Instr := { i with val := i.val.reloaded }

/-- A number that fits in a signed word of 64 bits. -/
def IsWord (n : Int) : Prop := -0x8000000000000000 ≤ n ∧ n ≤ 0x7fffffffffffffff

instance (n : Int) : Decidable (IsWord n) := inferInstanceAs (Decidable (_ ∧ _))

/-- A text that is UTF-8 and whose length is written in 64 bits. -/
def Text.IsStorable (t : Text) : Prop := t.size < 2 ^ 64 ∧ t.isUtf8 = true

instance (t : Text) : Decidable t.IsStorable := inferInstanceAs (Decidable (_ ∧ _))

/-- A literal whose integer is a word and whose text is UTF-8. -/
structure Literal.IsStorable (l : Literal) : Prop where
  int : IsWord l.int
  str : l.str.IsStorable

instance (l : Literal) : Decidable l.IsStorable :=
  decidable_of_iff (IsWord l.int ∧ l.str.IsStorable) ⟨fun h => ⟨h.1, h.2⟩, fun h => ⟨h.int, h.str⟩⟩

/-- A position of words. -/
structure Position.IsStorable (p : Position) : Prop where
  frame : IsWord p.frame
  slot : IsWord p.slot

instance (p : Position) : Decidable p.IsStorable :=
  decidable_of_iff (IsWord p.frame ∧ IsWord p.slot) ⟨fun h => ⟨h.1, h.2⟩, fun h => ⟨h.frame, h.slot⟩⟩

/-- An instruction whose integers are words and whose texts are UTF-8. -/
structure Instr.IsStorable (i : Instr) : Prop where
  val : i.val.IsStorable
  pos : i.pos.IsStorable
  addr : IsWord i.addr
  arity : IsWord i.arity
  num : IsWord i.num
  sym : i.sym.IsStorable

instance (i : Instr) : Decidable i.IsStorable :=
  decidable_of_iff (i.val.IsStorable ∧ i.pos.IsStorable ∧ IsWord i.addr ∧ IsWord i.arity ∧ IsWord i.num ∧
      i.sym.IsStorable)
    ⟨fun ⟨hval, hpos, haddr, harity, hnum, hsym⟩ => ⟨hval, hpos, haddr, harity, hnum, hsym⟩,
      fun h => ⟨h.val, h.pos, h.addr, h.arity, h.num, h.sym⟩⟩

namespace Image

/-! ## Leaves -/

theorem word?_ofInt {n : Int} (h : IsWord n) : word? (.ofInt n) = some n := by
  cases n with
  | ofNat n => simpa [word?, Item.ofInt, Item.int?, Item.untagged?] using h.2
  | negSucc n => simpa [word?, Item.ofInt, Item.int?, Item.untagged?] using h.1

theorem storable_ofInt {room : Nat} {n : Int} (h : IsWord n) : (Item.ofInt n).Storable room := by
  obtain ⟨hlow, hhigh⟩ := h
  cases n with
  | ofNat n =>
    rw [Int.ofNat_eq_natCast] at hhigh
    exact .uint (by omega)
  | negSucc n => exact .nint (by omega)

theorem octet?_uint (b : UInt8) : octet? (.uint b.toNat) = some b := by
  have hb : (b.toNat : Int) ≤ 255 := by have := b.toNat_lt; omega
  simp [octet?, Item.int?, Item.untagged?, hb]

theorem storable_octet {room : Nat} (b : UInt8) : (Item.uint b.toNat).Storable room :=
  .uint (b.toNat_lt.trans (by decide))

/-- A double that is left out is loaded as zero. -/
theorem reloaded_of_beq_zero {x : Float} (h : (x == 0) = true) : 0 = Double.reloaded x := by
  rw [Double.zero_eq]
  rcases (Double.beq_zero_iff x).1 h with rfl | rfl <;> decide

/-- A double that is not left out is loaded as it is. -/
theorem reloaded_of_bne_zero {x : Float} (h : (x == 0) = false) : Double.reloaded x = x := by
  have hne : x ≠ Double.zero true := by
    rintro rfl
    exact absurd ((Double.beq_zero_iff _).2 (.inr rfl)) (by simp [h])
  rw [Double.reloaded, if_neg hne]
  split
  next hnan => exact (Double.eq_nan_of_value hnan).symm
  next => rfl

/-! ## Fields -/

/-- A field of a record to be written. -/
structure Field where
  number : Nat
  isZero : Bool
  item : Item

namespace Field

/-- A field that is never left out. -/
def always (number : Nat) (item : Item) : Field := ⟨number, false, item⟩

/-- The entries of a map for some fields. -/
def entries (fields : List Field) : List (Item × Item) :=
  fields.flatMap fun f => optional f.number f.isZero f.item

/-- The record that a reader makes of some fields. -/
def written : List Field → Record
  | [] => []
  | f :: fields => if f.isZero then written fields else (.number f.number, f.item) :: written fields

theorem entries_cons (f : Field) (fields : List Field) :
    entries (f :: fields) = if f.isZero then entries fields else (.uint f.number, f.item) :: entries fields := by
  rw [entries, List.flatMap_cons, optional]
  split <;> rfl

theorem ofItem?_entries (fields : List Field) : Record.ofItem? (.map (entries fields)) = some (written fields) := by
  rw [Record.ofItem?]
  simp only [Item.untagged?]
  induction fields with
  | nil => rfl
  | cons f fields ih =>
    rw [entries_cons, written]
    split
    · exact ih
    · rw [List.mapM_cons, ih]
      rfl

theorem numbered?_cons (m n : Nat) (item : Item) (r : Record) :
    Record.numbered? ((.number m, item) :: r) n = if m = n then some item else r.numbered? n := by
  simp only [Record.numbered?, List.find?_cons, Key.number.injEq, Nat.cast_inj, reduceCtorEq, or_false]
  split_ifs with h <;> simp [h]

theorem numbered?_written_of_notMem {fields : List Field} {n : Nat} (h : n ∉ fields.map number) :
    (written fields).numbered? n = none := by
  induction fields with
  | nil => rfl
  | cons g fields ih =>
    rw [List.map_cons, List.mem_cons, not_or] at h
    rw [written]
    split
    · exact ih h.2
    · rw [numbered?_cons, if_neg (Ne.symm h.1), ih h.2]

/-- A field is found under its number unless it was left out. -/
theorem numbered?_written {fields : List Field} (hnodup : (fields.map number).Nodup) {f : Field} (hf : f ∈ fields) :
    (written fields).numbered? f.number = if f.isZero then none else some f.item := by
  induction fields with
  | nil => cases hf
  | cons g fields ih =>
    rw [List.map_cons, List.nodup_cons] at hnodup
    rw [written]
    rcases List.mem_cons.1 hf with rfl | hf
    · split
      · exact numbered?_written_of_notMem hnodup.1
      · rw [numbered?_cons, if_pos rfl]
    · have hne : g.number ≠ f.number := fun h => hnodup.1 (h ▸ List.mem_map_of_mem hf)
      split
      · exact ih hnodup.2 hf
      · rw [numbered?_cons, if_neg hne, ih hnodup.2 hf]

/-- A field is read back: its zero value if it was left out, and what its item holds otherwise. -/
theorem read_written {fields : List Field} (hnodup : (fields.map number).Nodup) {f : Field} (hf : f ∈ fields)
    {α : Type} {zero x : α} {of : Item → Option α} (hzero : f.isZero = true → zero = x)
    (hitem : f.isZero = false → of f.item = some x) :
    (written fields).read f.number zero of = some x := by
  rw [Record.read, numbered?_written hnodup hf]
  cases h : f.isZero with
  | true => simp [hzero h]
  | false => simpa using hitem h

section

variable {fields : List Field} (n : Nat) (hnodup : (fields.map number).Nodup)
include hnodup

theorem read_always {α : Type} {zero x : α} {of : Item → Option α} {item : Item} (hf : always n item ∈ fields)
    (hitem : of item = some x) : (written fields).read n zero of = some x :=
  read_written hnodup hf Bool.noConfusion fun _ => hitem

theorem read_word {x : Int} (hf : ⟨n, x = 0, .ofInt x⟩ ∈ fields) (hx : IsWord x) :
    (written fields).read n 0 word? = some x :=
  read_written hnodup hf (fun h => (of_decide_eq_true h).symm) fun _ => word?_ofInt hx

theorem read_float {x : Float} (hf : ⟨n, x == 0, .float x⟩ ∈ fields) :
    (written fields).read n 0 Item.float? = some (Double.reloaded x) :=
  read_written hnodup hf reloaded_of_beq_zero fun h => congrArg some (reloaded_of_bne_zero h).symm

theorem read_bool {b : Bool} (hf : ⟨n, !b, .bool b⟩ ∈ fields) :
    (written fields).read n false Item.bool? = some b :=
  read_written hnodup hf (fun h => by simpa using h) fun _ => rfl

theorem read_text {t : Text} (hf : ⟨n, t.isEmpty, .text t⟩ ∈ fields) :
    (written fields).read n ∅ Item.text? = some t :=
  read_written hnodup hf (fun h => congrArg Text.mk (List.isEmpty_iff.1 h).symm) fun _ => rfl

end

theorem length_entries_le (fields : List Field) : (entries fields).length ≤ fields.length := by
  induction fields with
  | nil => exact le_rfl
  | cons f fields ih =>
    rw [entries_cons]
    split
    · exact ih.trans (Nat.le_succ _)
    · exact Nat.succ_le_succ ih

/-- A map of fields can be stored if every field can that is not left out. -/
theorem storable {fields : List Field} {room : Nat} (hlength : fields.length ≤ maxElements)
    (hnumber : ∀ f ∈ fields, f.number < 2 ^ 64) (hitem : ∀ f ∈ fields, f.isZero = false → f.item.Storable room) :
    (Item.map (entries fields)).Storable (room + 1) := by
  have hmem : ∀ entry ∈ entries fields, ∃ f ∈ fields, f.isZero = false ∧ entry = (.uint f.number, f.item) := by
    intro entry hentry
    obtain ⟨f, hf, hmem⟩ := List.mem_flatMap.1 hentry
    cases hzero : f.isZero with
    | true => simp [optional, hzero] at hmem
    | false => exact ⟨f, hf, hzero, by simpa [optional, hzero] using hmem⟩
  refine .map ((length_entries_le fields).trans hlength) (fun entry hentry => ?_) fun entry hentry => ?_
  · obtain ⟨f, hf, -, rfl⟩ := hmem entry hentry
    exact .uint (hnumber f hf)
  · obtain ⟨f, hf, hzero, rfl⟩ := hmem entry hentry
    exact hitem f hf hzero

end Field

/-! ## Records -/

/-- The fields of a literal. -/
def literalFields (l : Literal) : List Field :=
  [.always 1 (.uint l.kind.toNat), ⟨2, l.int = 0, .ofInt l.int⟩, ⟨3, l.float == 0, .float l.float⟩,
    ⟨4, !l.bool, .bool l.bool⟩, ⟨5, l.str.isEmpty, .text l.str⟩]

theorem ofLiteral_eq (l : Literal) : ofLiteral l = .map (Field.entries (literalFields l)) := by
  simp [ofLiteral, literalFields, Field.entries, Field.always, optional]

theorem toLiteral?_ofLiteral {l : Literal} (h : l.IsStorable) : toLiteral? (ofLiteral l) = some l.reloaded := by
  have hnodup : ((literalFields l).map Field.number).Nodup := by
    show [1, 2, 3, 4, 5].Nodup
    decide
  have hkind : (Field.written (literalFields l)).read 1 0 octet? = some l.kind :=
    Field.read_always 1 hnodup (by simp [literalFields]) (octet?_uint l.kind)
  have hint : (Field.written (literalFields l)).read 2 0 word? = some l.int :=
    Field.read_word 2 hnodup (by simp [literalFields]) h.int
  have hfloat : (Field.written (literalFields l)).read 3 0 Item.float? = some (Double.reloaded l.float) :=
    Field.read_float 3 hnodup (by simp [literalFields])
  have hbool : (Field.written (literalFields l)).read 4 false Item.bool? = some l.bool :=
    Field.read_bool 4 hnodup (by simp [literalFields])
  have hstr : (Field.written (literalFields l)).read 5 ∅ Item.text? = some l.str :=
    Field.read_text 5 hnodup (by simp [literalFields])
  rw [toLiteral?, ofLiteral_eq, Field.ofItem?_entries]
  simp only [Option.bind_eq_bind, Option.bind_some, hkind, hint, hfloat, hbool, hstr, Literal.reloaded]

theorem storable_ofLiteral {room : Nat} {l : Literal} (h : l.IsStorable) : (ofLiteral l).Storable (room + 1) := by
  rw [ofLiteral_eq]
  refine Field.storable (Nat.le_of_ble_eq_true rfl) (by simp [literalFields, Field.always]) ?_
  simp only [literalFields, List.forall_mem_cons, List.not_mem_nil, false_imp_iff, implies_true, and_true]
  exact ⟨fun _ => storable_octet _, fun _ => storable_ofInt h.int, fun _ => .float, fun _ => .bool,
    fun _ => .text h.str.1 h.str.2⟩

/-- The fields of a position. -/
def positionFields (p : Position) : List Field := [.always 1 (.ofInt p.frame), .always 2 (.ofInt p.slot)]

theorem ofPosition_eq (p : Position) : ofPosition p = .map (Field.entries (positionFields p)) := rfl

theorem toPosition?_ofPosition {p : Position} (h : p.IsStorable) : toPosition? (ofPosition p) = some p := by
  have hnodup : ((positionFields p).map Field.number).Nodup := by
    show [1, 2].Nodup
    decide
  have hframe : (Field.written (positionFields p)).read 1 0 word? = some p.frame :=
    Field.read_always 1 hnodup (by simp [positionFields]) (word?_ofInt h.frame)
  have hslot : (Field.written (positionFields p)).read 2 0 word? = some p.slot :=
    Field.read_always 2 hnodup (by simp [positionFields]) (word?_ofInt h.slot)
  rw [toPosition?, ofPosition_eq, Field.ofItem?_entries]
  simp only [Option.bind_eq_bind, Option.bind_some, hframe, hslot]

theorem storable_ofPosition {room : Nat} {p : Position} (h : p.IsStorable) : (ofPosition p).Storable (room + 1) := by
  rw [ofPosition_eq]
  refine Field.storable (Nat.le_of_ble_eq_true rfl) (by simp [positionFields, Field.always]) ?_
  simp only [positionFields, List.forall_mem_cons, List.not_mem_nil, false_imp_iff, implies_true, and_true]
  exact ⟨fun _ => storable_ofInt h.frame, fun _ => storable_ofInt h.slot⟩

/-- The fields of an instruction. -/
def instrFields (i : Instr) : List Field :=
  [.always 1 (.uint i.op.code.toNat), .always 2 (ofLiteral i.val), .always 3 (ofPosition i.pos),
    ⟨4, i.addr = 0, .ofInt i.addr⟩, ⟨5, i.arity = 0, .ofInt i.arity⟩, ⟨6, i.num = 0, .ofInt i.num⟩,
    ⟨7, i.sym.isEmpty, .text i.sym⟩, ⟨8, !i.mutable, .bool i.mutable⟩]

theorem ofInstr_eq (i : Instr) : ofInstr i = .map (Field.entries (instrFields i)) := by
  simp [ofInstr, instrFields, Field.entries, Field.always, optional]

theorem toInstr?_ofInstr {i : Instr} (h : i.IsStorable) : toInstr? (ofInstr i) = some i.reloaded := by
  have hnodup : ((instrFields i).map Field.number).Nodup := by
    show [1, 2, 3, 4, 5, 6, 7, 8].Nodup
    decide
  have hop : (Field.written (instrFields i)).read 1 0 octet? = some i.op.code :=
    Field.read_always 1 hnodup (by simp [instrFields]) (octet?_uint i.op.code)
  have hval : (Field.written (instrFields i)).read 2 {} toLiteral? = some i.val.reloaded :=
    Field.read_always 2 hnodup (by simp [instrFields]) (toLiteral?_ofLiteral h.val)
  have hpos : (Field.written (instrFields i)).read 3 ⟨0, 0⟩ toPosition? = some i.pos :=
    Field.read_always 3 hnodup (by simp [instrFields]) (toPosition?_ofPosition h.pos)
  have haddr : (Field.written (instrFields i)).read 4 0 word? = some i.addr :=
    Field.read_word 4 hnodup (by simp [instrFields]) h.addr
  have harity : (Field.written (instrFields i)).read 5 0 word? = some i.arity :=
    Field.read_word 5 hnodup (by simp [instrFields]) h.arity
  have hnum : (Field.written (instrFields i)).read 6 0 word? = some i.num :=
    Field.read_word 6 hnodup (by simp [instrFields]) h.num
  have hsym : (Field.written (instrFields i)).read 7 ∅ Item.text? = some i.sym :=
    Field.read_text 7 hnodup (by simp [instrFields])
  have hmutable : (Field.written (instrFields i)).read 8 false Item.bool? = some i.mutable :=
    Field.read_bool 8 hnodup (by simp [instrFields])
  rw [toInstr?, ofInstr_eq, Field.ofItem?_entries]
  simp only [Option.bind_eq_bind, Option.bind_some, hop, hval, hpos, haddr, harity, hnum, hsym, hmutable,
    Instr.reloaded]

theorem storable_ofInstr {room : Nat} {i : Instr} (h : i.IsStorable) : (ofInstr i).Storable (room + 2) := by
  rw [ofInstr_eq]
  refine Field.storable (Nat.le_of_ble_eq_true rfl) (by simp [instrFields, Field.always]) ?_
  simp only [instrFields, List.forall_mem_cons, List.not_mem_nil, false_imp_iff, implies_true, and_true]
  exact ⟨fun _ => storable_octet _, fun _ => storable_ofLiteral h.val, fun _ => storable_ofPosition h.pos,
    fun _ => storable_ofInt h.addr, fun _ => storable_ofInt h.arity, fun _ => storable_ofInt h.num,
    fun _ => .text h.sym.1 h.sym.2, fun _ => .bool⟩

/-! ## Programs -/

theorem toInstrs?_ofInstr {p : Program} (h : ∀ i ∈ p, i.IsStorable) :
    toInstrs? (.array (p.map ofInstr)) = some (p.map Instr.reloaded) := by
  show (p.map ofInstr).mapM toInstr? = _
  induction p with
  | nil => rfl
  | cons i p ih =>
    rw [List.map_cons, List.mapM_cons, toInstr?_ofInstr (h i List.mem_cons_self),
      ih fun j hj => h j (List.mem_cons_of_mem i hj)]
    rfl

/-- The fields of an image. -/
def programFields (p : Program) : List Field :=
  [.always 1 (.text magic), .always 2 (.uint Program.version), .always 3 (.array (p.map ofInstr))]

theorem ofProgram_eq (p : Program) : ofProgram p = .map (Field.entries (programFields p)) := rfl

theorem toRaw?_ofProgram {p : Program} (h : ∀ i ∈ p, i.IsStorable) :
    toRaw? (ofProgram p) = some ⟨magic, Program.version, p.map Instr.reloaded⟩ := by
  have hnodup : ((programFields p).map Field.number).Nodup := by
    show [1, 2, 3].Nodup
    decide
  have hmagic : (Field.written (programFields p)).read 1 ∅ Item.text? = some magic :=
    Field.read_always 1 hnodup (by simp [programFields]) (show Item.text? (.text magic) = some magic from rfl)
  have hversion : (Field.written (programFields p)).read 2 0 (Item.int? 0 65535) = some (Program.version : Int) :=
    Field.read_always 2 hnodup (by simp [programFields])
      (show Item.int? 0 65535 (.uint Program.version) = some (Program.version : Int) from rfl)
  have hprogram : (Field.written (programFields p)).read 3 [] toInstrs? = some (p.map Instr.reloaded) :=
    Field.read_always 3 hnodup (by simp [programFields]) (toInstrs?_ofInstr h)
  rw [toRaw?, ofProgram_eq, Field.ofItem?_entries]
  simp only [Option.bind_eq_bind, Option.bind_some, hmagic, hversion, hprogram]

theorem storable_ofProgram {room : Nat} {p : Program} (hlength : p.length ≤ maxElements)
    (h : ∀ i ∈ p, i.IsStorable) : (ofProgram p).Storable (room + 4) := by
  have hcode : (Item.array (p.map ofInstr)).Storable (room + 3) := by
    refine .array (by simpa using hlength) fun item hitem => ?_
    obtain ⟨i, hi, rfl⟩ := List.mem_map.1 hitem
    exact storable_ofInstr (h i hi)
  rw [ofProgram_eq]
  refine Field.storable (Nat.le_of_ble_eq_true rfl) (by simp [programFields, Field.always]) ?_
  simp only [programFields, List.forall_mem_cons, List.not_mem_nil, false_imp_iff, implies_true, and_true]
  exact ⟨fun _ => .text (by decide) (by decide), fun _ => .uint (by decide), fun _ => hcode⟩

/-! ## Checks -/

/-- Reloading leaves alone all that is checked. -/
theorem check_map_reloaded (size index : Nat) (p : Program) :
    check size index (p.map Instr.reloaded) = check size index p := by
  induction p generalizing index with
  | nil => rfl
  | cons i p ih =>
    have hi : i.reloaded.validate size = i.validate size := rfl
    rw [List.map_cons, check, check, hi, ih]

/-- Instructions that pass are passed over. -/
theorem check_append {size index : Nat} {before rest : Program} (h : ∀ i ∈ before, i.validate size = .ok ()) :
    check size index (before ++ rest) = check size (index + before.length) rest := by
  induction before generalizing index with
  | nil => rfl
  | cons i before ih =>
    rw [List.cons_append, check, h i List.mem_cons_self]
    simp only
    rw [ih fun j hj => h j (List.mem_cons_of_mem i hj), List.length_cons, Nat.add_right_comm, Nat.add_assoc]

/-- A program with a defective instruction has a first one. -/
theorem exists_first_defect {size : Nat} {p : Program} (h : ∃ i ∈ p, i.validate size ≠ .ok ()) :
    ∃ before i after e, p = before ++ i :: after ∧ (∀ j ∈ before, j.validate size = .ok ()) ∧
      i.validate size = .error e := by
  induction p with
  | nil => simp at h
  | cons i p ih =>
    cases hi : i.validate size with
    | error e => exact ⟨[], i, p, e, rfl, by simp, hi⟩
    | ok =>
      have hrest : ∃ j ∈ p, j.validate size ≠ .ok () := by simpa [hi] using h
      obtain ⟨before, j, after, e, rfl, hbefore, hj⟩ := ih hrest
      exact ⟨i :: before, j, after, e, rfl, by simpa [hi] using hbefore, hj⟩

/-- What is loaded from an image is the program with its doubles reloaded, if it passes the check. -/
theorem decode_encode_eq {p : Program} (hlength : p.length ≤ maxElements) (h : ∀ i ∈ p, i.IsStorable) :
    decode (encode p) = (check p.length 0 p).map fun _ => p.map Instr.reloaded := by
  -- An image nests four levels deep: the image, its code, an instruction, and a literal or position of it.
  have hitem : Cbor.decode? (encode p) = some (ofProgram p) :=
    Item.Storable.decode?_encode (storable_ofProgram hlength h : (ofProgram p).Storable (28 + 4))
  rw [decode, hitem, Option.bind_some, toRaw?_ofProgram h]
  simp only [ne_eq, not_true_eq_false, if_false, List.length_map, check_map_reloaded]
  cases check p.length 0 p <;> rfl

/-- A program whose instructions all pass the check is loaded back from its image, up to the sign of zeros and the form
of what is not a number. If an instruction does not pass, loading fails with the defect of the first of them. -/
theorem decode_encode (p : Program) (hlength : p.length ≤ maxElements) (hp : ∀ i ∈ p, i.IsStorable) :
    ((∀ i ∈ p, i.validate p.length = .ok ()) → decode (encode p) = .ok (p.map Instr.reloaded)) ∧
    ((∃ i ∈ p, i.validate p.length ≠ .ok ()) →
      ∃ before i after e, p = before ++ i :: after ∧ (∀ j ∈ before, j.validate p.length = .ok ()) ∧
        i.validate p.length = .error e ∧ decode (encode p) = .error (.instr before.length e)) := by
  rw [decode_encode_eq hlength hp]
  refine ⟨fun hpass => ?_, fun hdefect => ?_⟩
  · have hcheck := @check_append _ 0 p [] hpass
    rw [List.append_nil] at hcheck
    rw [hcheck]
    rfl
  · obtain ⟨before, i, after, e, hsplit, hbefore, hi⟩ := exists_first_defect hdefect
    refine ⟨before, i, after, e, hsplit, hbefore, hi, ?_⟩
    have hcheck : check p.length 0 p = .error (.instr before.length e) := by
      rw [hsplit, check_append (hsplit ▸ hbefore), check, ← hsplit, hi, Nat.zero_add]
    rw [hcheck]
    rfl

/-- A program with a negative zero, the least integer, a text and operands at their limits is loaded back with the sign
of its zero lost, and one with two defective calls fails at the first of them. -/
theorem decode_encode_limits :
    decode (encode [.loadConstant (.ofFloat (Double.zero true)), .loadConstant (.ofInt (-0x8000000000000000)),
        .loadConstant (.ofText ⟨[0xc3, 0xa9]⟩), .load ⟨8, 8⟩, .enterScope 9, .call 9, .jump 7]) =
      .ok [.loadConstant (.ofFloat (Double.zero false)), .loadConstant (.ofInt (-0x8000000000000000)),
        .loadConstant (.ofText ⟨[0xc3, 0xa9]⟩), .load ⟨8, 8⟩, .enterScope 9, .call 9, .jump 7] ∧
    decode (encode [.plain .pop, .call 10, .call (-1)]) = .error (.instr 1 (.arity 10)) := by
  constructor
  · rw [(decode_encode _ (by decide) (by decide)).1 (by decide)]
    rfl
  · obtain ⟨before, i, after, e, hsplit, hbefore, hi, hdecode⟩ :=
      (decode_encode [.plain .pop, .call 10, .call (-1)] (by decide) (by decide)).2
        ⟨.call 10, by simp, by decide⟩
    rw [hdecode]
    match before, hsplit, hbefore with
    | [], hsplit, _ =>
      obtain ⟨rfl, -⟩ := List.cons.inj hsplit
      cases hi
    | [_], hsplit, _ =>
      obtain ⟨-, hrest⟩ := List.cons.inj hsplit
      obtain ⟨rfl, -⟩ := List.cons.inj hrest
      cases hi
      rfl
    | _ :: second :: _, hsplit, hbefore =>
      obtain ⟨-, hrest⟩ := List.cons.inj hsplit
      obtain ⟨rfl, -⟩ := List.cons.inj hrest
      cases hbefore (.call 10) (by simp)

end Image

end Tenure
