import Tenure.Proofs.Cbor.Canonical
import Tenure.Proofs.Tree.Plain
import Tenure.Store.Key
import Tenure.Tree.Binary

/-!
# The canonical form of a tree

A tree is read back from its canonical form with its numerals as texts: `Tree.Portable.ofItem?_item`. So trees with one
canonical form differ in nothing else: `Tree.Portable.reloaded_eq`. The payloads may be whatever structured text can
hold, and integers and doubles besides. The members of a map stand in the order of their names in the payload and in
another one in the canonical form, so reading them sorts them again.
-/

set_option autoImplicit false

namespace Tenure

/-! ## The order of texts -/

namespace Text

/-- The numbers of the octets of a text, by which texts are ordered. -/
def rank (t : Text) : List Nat := t.octets.map UInt8.toNat

theorem rank_inj {t u : Text} (h : t.rank = u.rank) : t = u := by
  obtain ⟨a⟩ := t
  obtain ⟨b⟩ := u
  exact congrArg mk (List.map_injective_iff.2 (fun _ _ => UInt8.toNat_inj.1) h)

theorem before_iff {a b : List UInt8} : before a b = true ↔ a.map UInt8.toNat < b.map UInt8.toNat := by
  induction a generalizing b with
  | nil => cases b <;> simp [before]
  | cons x a ih =>
    cases b with
    | nil => simp [before]
    | cons y b =>
      rw [before, List.map_cons, List.map_cons, List.cons_lt_cons_iff]
      split
      next heq => simp [heq, ih]
      next hne =>
        have : x.toNat ≠ y.toNat := fun h => hne (UInt8.toNat_inj.1 h)
        simp [this, UInt8.lt_iff_toNat_lt]

theorem precedes_iff {t u : Text} : t.precedes u = true ↔ t.rank < u.rank := before_iff

end Text

namespace Cbor

/-- Of two keys with different forms one comes before the other. -/
theorem encode_eq_of_not_keyBefore {a b : Item} (h : ¬keyBefore a b = true) (h' : ¬keyBefore b a = true) :
    a.encode = b.encode := by
  simp only [keyBefore, Bool.or_eq_true, Bool.and_eq_true, decide_eq_true_eq, Text.before_iff] at h h'
  have hlength : a.encode.length = b.encode.length := by omega
  have heq : a.encode.map UInt8.toNat = b.encode.map UInt8.toNat :=
    le_antisymm (not_lt.1 fun hlt => h' (.inr ⟨hlength.symm, hlt⟩)) (not_lt.1 fun hlt => h (.inr ⟨hlength, hlt⟩))
  exact List.map_injective_iff.2 (fun _ _ => UInt8.toNat_inj.1) heq

end Cbor

namespace Payload

/-! ## Maps with names -/

/-- The members that named payloads make up. -/
def membersOf (named : List (Text × Payload)) : List (Payload × Payload) := named.map fun m => (.text m.1, m.2)

/-- The entries that named payloads have in binary form. -/
def namedEntries (named : List (Text × Payload)) : List (Cbor.Item × Cbor.Item) :=
  named.map fun m => (.text m.1, m.2.item)

/-- A named payload stands before another or has the same name. -/
def ByName (m n : Text × Payload) : Prop := m.1.rank ≤ n.1.rank

instance : DecidableRel ByName := fun m n => inferInstanceAs (Decidable (m.1.rank ≤ n.1.rank))

instance : Std.Total ByName := ⟨fun m n => le_total m.1.rank n.1.rank⟩

instance : IsTrans (Text × Payload) ByName := ⟨fun _ _ _ => le_trans⟩

theorem keyOrder_text (t u : Text) : keyOrder (.text t) (.text u) = textOrder t u := rfl

/-- A member with a new name is put into the place of its name. -/
theorem insertMember_membersOf {named : List (Text × Payload)} {t : Text} (v : Payload) (h : ∀ m ∈ named, t ≠ m.1) :
    insertMember (.text t) v (membersOf named) = membersOf (named.orderedInsert ByName (t, v)) := by
  induction named with
  | nil => rfl
  | cons m named ih =>
    have hne := h m (by simp)
    have hrank : t.rank ≠ m.1.rank := fun heq => hne (Text.rank_inj heq)
    rw [membersOf, List.map_cons, insertMember, keyOrder_text, textOrder, if_neg hne, List.orderedInsert_cons]
    by_cases hlt : t.rank < m.1.rank
    · rw [if_pos (Text.precedes_iff.2 hlt), if_pos (show ByName (t, v) m from hlt.le)]
      rfl
    · rw [if_neg fun hp => hlt (Text.precedes_iff.1 hp),
        if_neg (show ¬ByName (t, v) m from fun hle => hlt (lt_of_le_of_ne hle hrank))]
      exact congrArg ((Payload.text m.1, m.2) :: ·) (ih fun n hn => h n (by simp [hn]))

/-- An entry with a new name is put somewhere. -/
theorem insertEntry_namedEntries {named : List (Text × Payload)} {t : Text} (v : Payload)
    (h : ∀ m ∈ named, t ≠ m.1) (ht : t.size < 2 ^ 64) (hsize : ∀ m ∈ named, m.1.size < 2 ^ 64) :
    ∃ others, others.Perm ((t, v) :: named) ∧
      Cbor.insertEntry (.text t) v.item (namedEntries named) = namedEntries others := by
  induction named with
  | nil => exact ⟨[(t, v)], .refl _, rfl⟩
  | cons m named ih =>
    obtain ⟨others, hperm, heq⟩ := ih (fun n hn => h n (by simp [hn])) fun n hn => hsize n (by simp [hn])
    rw [namedEntries, List.map_cons, Cbor.insertEntry]
    split
    · exact ⟨(t, v) :: m :: named, .refl _, rfl⟩
    next hbefore =>
      split
      · exact ⟨m :: others, (hperm.cons m).trans (.swap ..), congrArg (_ :: ·) heq⟩
      next hafter =>
        have hencode := Cbor.encode_eq_of_not_keyBefore hbefore hafter
        have := Cbor.Item.Bounded.encode_inj (.text ht) (.text (hsize m (by simp))) hencode
        exact absurd (Cbor.Item.text.inj this) (h m (by simp))

/-- The entries of a map with names have these names in some order. -/
theorem entriesOf_membersOf {named : List (Text × Payload)} (hnodup : (named.map Prod.fst).Nodup)
    (hsize : ∀ m ∈ named, m.1.size < 2 ^ 64) :
    ∃ others, others.Perm named ∧ entriesOf (membersOf named) = namedEntries others := by
  induction named with
  | nil => exact ⟨[], .refl _, rfl⟩
  | cons m named ih =>
    obtain ⟨hm, hnodup⟩ := List.nodup_cons.1 hnodup
    obtain ⟨others, hperm, heq⟩ := ih hnodup fun n hn => hsize n (by simp [hn])
    have hfresh : ∀ n ∈ others, m.1 ≠ n.1 := fun n hn hname =>
      hm (hname ▸ List.mem_map_of_mem (hperm.mem_iff.1 hn))
    obtain ⟨others', hperm', heq'⟩ := insertEntry_namedEntries m.2 hfresh (hsize m (by simp)) fun n hn =>
      hsize n (by simp [hperm.mem_iff.1 hn])
    refine ⟨others', hperm'.trans (hperm.cons m), ?_⟩
    rw [membersOf, List.map_cons, entriesOf]
    exact (congrArg _ heq).trans heq'

/-- A named payload with its numerals replaced by their texts. -/
def plainNamed (m : Text × Payload) : Text × Payload := (m.1, m.2.plain)

theorem plainMembers_membersOf (named : List (Text × Payload)) :
    plainMembers (membersOf named) = membersOf (named.map plainNamed) := by
  induction named with
  | nil => rfl
  | cons m named ih => exact congrArg ((Payload.text m.1, m.2.plain) :: ·) ih

/-- Reads a payload after others into the place of its name. -/
def readInto (done : List (Text × Payload)) (m : Text × Payload) : List (Text × Payload) :=
  done.orderedInsert ByName (plainNamed m)

theorem foldl_readInto_perm (named done : List (Text × Payload)) :
    (named.foldl readInto done).Perm (named.map plainNamed ++ done) := by
  induction named generalizing done with
  | nil => exact .refl _
  | cons m named ih =>
    have hinsert : (readInto done m).Perm (plainNamed m :: done) := List.perm_orderedInsert ..
    exact (ih _).trans ((hinsert.append_left _).trans List.perm_middle)

theorem foldl_readInto_pairwise {named done : List (Text × Payload)} (h : done.Pairwise ByName) :
    (named.foldl readInto done).Pairwise ByName := by
  induction named generalizing done with
  | nil => exact h
  | cons m named ih => exact ih (h.orderedInsert _ _)

/-- The entries of a map with names are read one after the other, each into the place of its name. -/
theorem ofEntries?_namedEntries {named done : List (Text × Payload)}
    (hvalues : ∀ m ∈ named, ofItem? true m.2.item = some m.2.plain)
    (hnodup : (named.map Prod.fst ++ done.map Prod.fst).Nodup) :
    ofEntries? (membersOf done) (namedEntries named) = some (membersOf (named.foldl readInto done)) := by
  induction named generalizing done with
  | nil => rfl
  | cons m named ih =>
    rw [List.map_cons, List.cons_append, List.nodup_cons] at hnodup
    obtain ⟨hm, hnodup⟩ := hnodup
    have hinsert : insertMember (.text m.1) m.2.plain (membersOf done) = membersOf (readInto done m) :=
      insertMember_membersOf _ fun n hn hname => hm (by simp [hname, List.mem_map_of_mem hn])
    have hnodup' : (named.map Prod.fst ++ (readInto done m).map Prod.fst).Nodup := by
      have hperm : (readInto done m).Perm (plainNamed m :: done) := List.perm_orderedInsert ..
      refine (((hperm.map Prod.fst).append_left _).trans List.perm_middle).nodup_iff.2 ?_
      exact List.nodup_cons.2 ⟨hm, hnodup⟩
    rw [namedEntries, List.map_cons, ofEntries?, hvalues m (by simp)]
    simp only [ofItem?, Option.bind_eq_bind, Option.bind_some, isKey, if_true, hinsert]
    exact ih (fun n hn => hvalues n (by simp [hn])) hnodup'

theorem nodup_names {named : List (Text × Payload)} (hsorted : named.Pairwise fun m n => m.1.precedes n.1 = true) :
    (named.map Prod.fst).Nodup := by
  refine List.pairwise_map.2 (hsorted.imp fun hlt heq => ?_)
  rw [heq, Text.precedes_iff] at hlt
  exact lt_irrefl _ hlt

/-- A map with names is read back with its members in order. -/
theorem ofEntries?_entriesOf {named : List (Text × Payload)}
    (hsorted : named.Pairwise fun m n => m.1.precedes n.1 = true) (hnames : ∀ m ∈ named, m.1.size < 2 ^ 64)
    (hvalues : ∀ m ∈ named, ofItem? true m.2.item = some m.2.plain) :
    ofEntries? [] (entriesOf (membersOf named)) = some (plainMembers (membersOf named)) := by
  have hnodup := nodup_names hsorted
  obtain ⟨others, hperm, hentries⟩ := entriesOf_membersOf hnodup hnames
  have hread : ofEntries? (membersOf []) (namedEntries others) = some (membersOf (others.foldl readInto [])) :=
    ofEntries?_namedEntries (fun m hm => hvalues m (hperm.mem_iff.1 hm))
      (by simpa using (hperm.map _).nodup_iff.2 hnodup)
  have hplain : (named.map plainNamed).Pairwise ByName :=
    List.pairwise_map.2 (hsorted.imp fun hlt => (Text.precedes_iff.1 hlt).le)
  have hperm' : (others.foldl readInto []).Perm (named.map plainNamed) :=
    (foldl_readInto_perm others []).trans (by simpa using hperm.map plainNamed)
  have heq : others.foldl readInto [] = named.map plainNamed := by
    refine hperm'.eq_of_pairwise (fun m n hm hn hmn hnm => ?_) (foldl_readInto_pairwise .nil) hplain
    have hnames : ((named.map plainNamed).map Prod.fst).Nodup := by rwa [List.map_map]
    exact List.inj_on_of_nodup_map hnames (hperm'.mem_iff.1 hm) hn (Text.rank_inj (le_antisymm hmn hnm))
  rw [hentries, plainMembers_membersOf, ← heq]
  exact hread

/-- A payload that its canonical form keeps, but for the difference between a numeral and its text. -/
inductive Portable : Payload → Prop where
  | none : Portable .none
  | text {t : Text} (h : t.size < 2 ^ 64) : Portable (.text t)
  | numeral {token : Text} (h : token.size < 2 ^ 64) : Portable (.numeral token)
  | bool {b : Bool} : Portable (.bool b)
  | float {x : Float} : Portable (.float x)
  | int {n : Int} (hlow : -2 ^ 63 ≤ n) (hhigh : n < 2 ^ 64) : Portable (.int n)
  | list {items : List Payload} (hlength : items.length < 2 ^ 64) (hitems : ∀ p ∈ items, Portable p) :
      Portable (.list items)
  | map {named : List (Text × Payload)} (hlength : named.length < 2 ^ 64)
      (hsorted : named.Pairwise fun m n => m.1.precedes n.1 = true) (hnames : ∀ m ∈ named, m.1.size < 2 ^ 64)
      (hvalues : ∀ m ∈ named, Portable m.2) : Portable (.map (membersOf named))

theorem itemsOf_eq_map (items : List Payload) : itemsOf items = items.map item := by
  induction items with
  | nil => rfl
  | cons p items ih => rw [itemsOf, ih, List.map_cons]

theorem ofItems?_itemsOf {items : List Payload} (h : ∀ p ∈ items, ofItem? true p.item = some p.plain) :
    ofItems? (itemsOf items) = some (plainItems items) := by
  induction items with
  | nil => rfl
  | cons p items ih =>
    rw [itemsOf, ofItems?, h p (by simp), ih fun q hq => h q (by simp [hq])]
    rfl

/-- A payload is read back with its numerals as texts. -/
theorem Portable.ofItem?_item {p : Payload} (h : p.Portable) : ofItem? true p.item = some p.plain := by
  induction h with
  | none | text | numeral | bool | float => rfl
  | @int n hlow hhigh =>
    cases n with
    | ofNat n => rfl
    | negSucc n =>
      show some (if n < 0x8000000000000000 then Payload.int (Int.negSucc n) else _) = _
      rw [if_pos (by omega)]
      rfl
  | list _ _ ih =>
    rw [item, ofItem?, ofItems?_itemsOf ih]
    rfl
  | map _ hsorted hnames _ ih =>
    rw [item, ofItem?, ofEntries?_entriesOf hsorted hnames ih]
    rfl

/-- The canonical form of a payload has numbers and lengths of 64 bits. -/
theorem Portable.bounded_item {p : Payload} (h : p.Portable) : p.item.Bounded := by
  induction h with
  | none => exact .null
  | text h | numeral h => exact .text h
  | bool => exact .bool
  | float => exact .float
  | int hlow hhigh => exact Cbor.Item.bounded_ofInt (by omega) hhigh
  | list hlength _ ih =>
    rw [item, itemsOf_eq_map]
    exact .array (by rwa [List.length_map]) (List.forall_mem_map.2 ih)
  | map hlength hsorted hnames _ ih =>
    obtain ⟨others, hperm, hentries⟩ := entriesOf_membersOf (nodup_names hsorted) hnames
    rw [item, hentries]
    refine .map (by rwa [namedEntries, List.length_map, hperm.length_eq]) (List.forall_mem_map.2 fun m hm => ?_)
      (List.forall_mem_map.2 fun m hm => ?_)
    · exact .text (hnames m (hperm.mem_iff.1 hm))
    · exact ih m (hperm.mem_iff.1 hm)

end Payload

namespace Tree

theorem itemsOf_eq_map (trees : List Tree) : itemsOf trees = trees.map item := by
  induction trees with
  | nil => rfl
  | cons t trees ih => rw [itemsOf, ih, List.map_cons]

mutual

/-- A tree as it is read back from its canonical form: its numerals are texts. -/
def reloaded : Tree → Tree
  | .absent => .absent
  | .node tag children val type => .node tag (reloadedAll children) val.plain type

/-- Trees as they are read back. -/
def reloadedAll : List Tree → List Tree
  | [] => []
  | t :: rest => t.reloaded :: reloadedAll rest

end

/-- A tree that its canonical form keeps, but for the difference between numerals and texts. -/
inductive Portable : Tree → Prop where
  | absent : Portable .absent
  | node {tag type : Text} {children : List Tree} {val : Payload} (htag : tag.size < 2 ^ 64)
      (htype : type.size < 2 ^ 64) (hval : val.Portable) (hlength : children.length < 2 ^ 64) (hchildren : ∀ t ∈ children, Portable t) :
      Portable (.node tag children val type)

theorem ofItems?_itemsOf {trees : List Tree} (h : ∀ t ∈ trees, ofItem? t.item = some t.reloaded) :
    ofItems? (itemsOf trees) = some (reloadedAll trees) := by
  induction trees with
  | nil => rfl
  | cons t trees ih =>
    rw [itemsOf, ofItems?, h t (by simp), ih fun u hu => h u (by simp [hu])]
    rfl

/-! The fields of a node are read one by one. -/

section

variable {t : Tree} {done : List Field} {rest : List (Cbor.Item × Cbor.Item)}

theorem text?_text (t : Text) : (Cbor.Item.text t).text? = some t := rfl

theorem readItems?_nil : readItems? t done [] = some t := by rw [readItems?]

theorem readItems?_tag (h : Field.tag ∉ done) (tag : Text) :
    readItems? t done ((.text "tag", .text tag) :: rest) = readItems? (t.withTag tag) (.tag :: done) rest := by
  rw [readItems?, Cbor.Key.ofItem?, Option.bind_eq_bind, Option.bind_some,
    show Field.ofKey? (.word "tag") = some .tag by decide]
  simp [h, text?_text]

theorem readItems?_type (h : Field.type ∉ done) (type : Text) :
    readItems? t done ((.text "type", .text type) :: rest) = readItems? (t.withType type) (.type :: done) rest := by
  rw [readItems?, Cbor.Key.ofItem?, Option.bind_eq_bind, Option.bind_some,
    show Field.ofKey? (.word "type") = some .type by decide]
  simp [h, text?_text]

theorem readItems?_val {item : Cbor.Item} {val : Payload} (h : Field.val ∉ done)
    (hval : Payload.ofItem? true item = some val) :
    readItems? t done ((.text "val", item) :: rest) = readItems? (t.withVal val) (.val :: done) rest := by
  rw [readItems?, Cbor.Key.ofItem?, Option.bind_eq_bind, Option.bind_some,
    show Field.ofKey? (.word "val") = some .val by decide]
  simp [h, hval]

theorem readItems?_children {items : List Cbor.Item} {children : List Tree} (h : Field.children ∉ done)
    (hchildren : ofItems? items = some children) :
    readItems? t done ((.text "children", .array items) :: rest) =
      readItems? (t.withChildren children) (.children :: done) rest := by
  rw [readItems?, Cbor.Key.ofItem?, Option.bind_eq_bind, Option.bind_some,
    show Field.ofKey? (.word "children") = some .children by decide]
  simp [h, childrenOfItem?, hchildren]

end

/-- A tree is read back with its numerals as texts. -/
theorem Portable.ofItem?_item {t : Tree} (h : t.Portable) : ofItem? t.item = some t.reloaded := by
  induction h with
  | absent => rfl
  | @node tag type children val htag htype hval hlength hchildren ih =>
    have hread := ofItems?_itemsOf ih
    rw [item, ofItem?, List.cons_append, List.cons_append, List.cons_append, readItems?_tag (by simp), reloaded]
    have hpayload := hval.ofItem?_item
    -- What is left out of the form is what a blank node has.
    have hnone : val.isSome = false → val = .none := by cases val <;> simp [Payload.isSome]
    have hempty : type.isEmpty = true → type = ∅ := fun h => congrArg Text.mk (List.isEmpty_iff.1 h)
    cases hv : val.isSome <;> cases ht : type.isEmpty <;> cases hc : children.isEmpty <;>
      simp_all [readItems?_val, readItems?_type, readItems?_children, readItems?_nil, blank, withTag, withVal, withType,
        withChildren, Payload.plain, reloadedAll]

theorem bounded_map {entries : List (Cbor.Item × Cbor.Item)} (hlength : entries.length < 2 ^ 64)
    (h : ∀ entry ∈ entries, entry.1.Bounded ∧ entry.2.Bounded) : (Cbor.Item.map entries).Bounded :=
  .map hlength (fun entry hentry => (h entry hentry).1) fun entry hentry => (h entry hentry).2

theorem bounded_field {word : Text} {value : Cbor.Item} (hword : word.size < 2 ^ 64) (hvalue : value.Bounded) :
    ∀ entry ∈ [(Cbor.Item.text word, value)], entry.1.Bounded ∧ entry.2.Bounded :=
  List.forall_mem_singleton.2 ⟨.text hword, hvalue⟩

/-- The canonical form of a tree has numbers and lengths of 64 bits. -/
theorem Portable.bounded_item {t : Tree} (h : t.Portable) : t.item.Bounded := by
  induction h with
  | absent => exact .null
  | @node tag type children val htag htype hval hlength hchildren ih =>
    have hitems : (Cbor.Item.array (itemsOf children)).Bounded := by
      rw [itemsOf_eq_map]
      exact .array (by rwa [List.length_map]) (List.forall_mem_map.2 ih)
    rw [item]
    refine bounded_map ?_ ?_
    · simp only [List.length_append]
      split <;> split <;> split <;> simp
    · simp only [List.forall_mem_append]
      refine ⟨⟨⟨bounded_field (by decide) (.text htag), ?_⟩, ?_⟩, ?_⟩
      · split
        · exact bounded_field (by decide) hval.bounded_item
        · exact List.forall_mem_nil _
      · split
        · exact List.forall_mem_nil _
        · exact bounded_field (by decide) (.text htype)
      · split
        · exact List.forall_mem_nil _
        · exact bounded_field (by decide) hitems

/-- Trees with one canonical form are the same but for the difference between numerals and texts. -/
theorem Portable.reloaded_eq {t u : Tree} (ht : t.Portable) (hu : u.Portable) (h : t.item.encode = u.item.encode) :
    t.reloaded = u.reloaded := by
  have hitem : t.item = u.item := ht.bounded_item.encode_inj hu.bounded_item h
  have hread := ht.ofItem?_item
  rw [hitem, hu.ofItem?_item] at hread
  exact (Option.some.inj hread).symm

end Tree

end Tenure
