import Mathlib.Data.List.Count
import Mathlib.Data.Set.Card
import Tenure.Proofs.Code.Reading
import Tenure.Proofs.Compile.Validity
import Tenure.Store.Cache

/-!
# The cache does not show

A cache is empty at first and then serves a sequence of trees. Every answer is the one that compiling the tree would
give, except that the doubles of a program from the cache have gone through an image: `Cache.history_transparent`. It is
enough that trees with one key compile to one result. The entries of the cache are at all times the images of the trees
that compiled, one for each key, `Cache.Reflects`; what a call does to that is `Cache.Reflects.compile`, and the counts
add up over the history.
-/

set_option autoImplicit false

namespace Tenure

/-! ## Images of compiled programs -/

/-- A program that fits into the memory of a machine of 64 bits. -/
structure Program.Fits (p : Program) : Prop where
  length : p.length < 2 ^ 63
  texts : ∀ i ∈ p, i.val.str.size < 2 ^ 64 ∧ i.sym.size < 2 ^ 64

theorem isWord_natCast {n : Nat} (h : n < 2 ^ 63) : IsWord n := by
  unfold IsWord
  omega

theorem Position.Fits.storable {p : Position} (h : p.Fits) : p.IsStorable := by
  obtain ⟨frame, slot, rfl, hframe, hslot⟩ := h
  exact ⟨isWord_natCast (hframe.trans (by decide)), isWord_natCast (hslot.trans (by decide))⟩

theorem Literal.Known.isWord {l : Literal} (h : l.Known) : IsWord l.int := by
  have := h.int
  unfold IsWord
  omega

/-- The integers of emitted instructions are words. -/
theorem Instr.Emitted.isWritable {i : Instr} {size : Nat} (h : i.Emitted size) (hsize : size < 2 ^ 63)
    (hval : i.val.str.size < 2 ^ 64) (hsym : i.sym.size < 2 ^ 64) : i.IsWritable := by
  have hzero : IsWord 0 := by decide
  have horigin : Position.IsStorable ⟨0, 0⟩ := ⟨hzero, hzero⟩
  have hslots : maxFrameSlots < 2 ^ 63 := by decide
  cases h with
  | bare ho => exact ⟨⟨hzero, hval⟩, horigin, hzero, hzero, hzero, hsym⟩
  | constant hl => exact ⟨⟨hl.isWord, hval⟩, horigin, hzero, hzero, hzero, hsym⟩
  | load hp => exact ⟨⟨hzero, hval⟩, hp.storable, hzero, hzero, hzero, hsym⟩
  | assign hp => exact ⟨⟨hzero, hval⟩, hp.storable, hzero, hzero, hzero, hsym⟩
  | drop hp => exact ⟨⟨hzero, hval⟩, hp.storable, hzero, hzero, hzero, hsym⟩
  | reference hp => exact ⟨⟨hzero, hval⟩, hp.storable, hzero, hzero, hzero, hsym⟩
  | unary => exact ⟨⟨hzero, hval⟩, horigin, hzero, hzero, hzero, hsym⟩
  | binary => exact ⟨⟨hzero, hval⟩, horigin, hzero, hzero, hzero, hsym⟩
  | jumpUnless htarget =>
    exact ⟨⟨hzero, hval⟩, horigin, isWord_natCast (htarget.trans_lt hsize), hzero, hzero, hsym⟩
  | jump htarget => exact ⟨⟨hzero, hval⟩, horigin, isWord_natCast (htarget.trans_lt hsize), hzero, hzero, hsym⟩
  | loadFunction harity hentry =>
    exact ⟨⟨hzero, hval⟩, horigin, isWord_natCast (hentry.trans_lt hsize), isWord_natCast (harity.trans_lt hslots),
      hzero, hsym⟩
  | enterScope hscope =>
    exact ⟨⟨hzero, hval⟩, horigin, hzero, hzero, isWord_natCast (hscope.trans_lt hslots), hsym⟩
  | call harity => exact ⟨⟨hzero, hval⟩, horigin, hzero, isWord_natCast (harity.trans_lt hsize), hzero, hsym⟩

/-- What is loaded from the image of a compiled program is that program with its doubles reloaded. -/
theorem Tree.eq_of_decode_compile {t : Tree} {p q : Program} (h : t.compile = .ok p) (hfits : p.Fits)
    (hq : Image.decode (Image.encode p) = .ok q) : q = p.map Instr.reloaded := by
  have hlength := hfits.length
  refine Image.eq_of_decode_encode (by omega) (fun i hi => ?_) hq
  exact (Tree.compile_emitted h i hi).isWritable hfits.length (hfits.texts i hi).1 (hfits.texts i hi).2

namespace Cache

variable {c : Cache} {t u : Tree} {ts earlier : List Tree} {p q : Program} {key : Text} {image : List UInt8}

/-! ## Entries -/

/-- The entries of a cache are the images of the trees before that compiled, one for each key. -/
structure Reflects (earlier : List Tree) (c : Cache) : Prop where
  nodup : (c.entries.map Prod.fst).Nodup
  mem : ∀ key image, (key, image) ∈ c.entries ↔
    ∃ u ∈ earlier, u.key = key ∧ ∃ p, u.compile = .ok p ∧ image = Image.encode p

theorem image?_eq_none : c.image? key = none ↔ ∀ image, (key, image) ∉ c.entries := by
  rw [image?, Option.map_eq_none_iff, List.find?_eq_none]
  exact ⟨fun h image hmem => h _ hmem (by simp), fun h entry hmem => by
    simp only [decide_eq_true_eq]
    rintro rfl
    exact h entry.2 hmem⟩

theorem mem_of_image? (h : c.image? key = some image) : (key, image) ∈ c.entries := by
  obtain ⟨⟨k, i⟩, hfind, rfl⟩ := Option.map_eq_some_iff.1 h
  obtain rfl : k = key := by simpa using List.find?_some hfind
  exact List.mem_of_find?_eq_some hfind

/-- Where no key has two entries, a look-up finds every entry. -/
theorem image?_eq_some_iff (h : (c.entries.map Prod.fst).Nodup) :
    c.image? key = some image ↔ (key, image) ∈ c.entries := by
  refine ⟨mem_of_image?, fun hmem => ?_⟩
  cases himage : c.image? key with
  | none => exact absurd hmem (image?_eq_none.1 himage image)
  | some found =>
    have hentry : (key, found) = (key, image) := List.inj_on_of_nodup_map h (mem_of_image? himage) hmem rfl
    rw [(Prod.mk.inj hentry).2]

theorem mem_put {entry : Text × List UInt8} :
    entry ∈ (c.put key p).entries ↔ entry = (key, Image.encode p) ∨ entry ∈ c.entries ∧ entry.1 ≠ key := by
  simp [put]

theorem nodup_put (h : (c.entries.map Prod.fst).Nodup) : ((c.put key p).entries.map Prod.fst).Nodup := by
  rw [put, List.map_cons, List.nodup_cons]
  refine ⟨fun hmem => ?_, h.sublist (List.filter_sublist.map Prod.fst)⟩
  obtain ⟨entry, hentry, rfl⟩ := List.mem_map.1 hmem
  simp at hentry

namespace Reflects

/-- A tree that does not compile adds nothing. -/
theorem skip {e : Stop CompileError} (h : Reflects earlier c) (he : t.compile = .error e) {c' : Cache}
    (hentries : c'.entries = c.entries) : Reflects (earlier ++ [t]) c' := by
  refine ⟨hentries ▸ h.nodup, fun key image => ?_⟩
  rw [hentries, h.mem]
  simp only [List.mem_append, List.mem_singleton]
  constructor
  · rintro ⟨u, hu, hrest⟩
    exact ⟨u, .inl hu, hrest⟩
  · rintro ⟨u, hu | rfl, hkey, p, hp, himage⟩
    · exact ⟨u, hu, hkey, p, hp, himage⟩
    · rw [he] at hp
      cases hp

/-- A tree whose entry is there adds nothing. -/
theorem repeated (h : Reflects earlier c) (hp : t.compile = .ok p) (hmem : (t.key, Image.encode p) ∈ c.entries)
    {c' : Cache} (hentries : c'.entries = c.entries) : Reflects (earlier ++ [t]) c' := by
  refine ⟨hentries ▸ h.nodup, fun key image => ?_⟩
  rw [hentries]
  constructor
  · intro hmem'
    obtain ⟨u, hu, hrest⟩ := (h.mem key image).1 hmem'
    exact ⟨u, by simp [hu], hrest⟩
  · rintro ⟨u, hu, rfl, q, hq, rfl⟩
    rcases List.mem_append.1 hu with hu | hu
    · exact (h.mem _ _).2 ⟨u, hu, rfl, q, hq, rfl⟩
    · obtain rfl := List.mem_singleton.1 hu
      obtain rfl := Except.ok.inj (hp.symm.trans hq)
      exact hmem

/-- The image of a tree replaces those under its key. -/
theorem put (h : Reflects earlier c) (hp : t.compile = .ok p) (hsame : ∀ u ∈ earlier, u.key = t.key → u.compile = .ok p)
    {c' : Cache} (hentries : c'.entries = (c.put t.key p).entries) : Reflects (earlier ++ [t]) c' := by
  refine ⟨hentries ▸ nodup_put h.nodup, fun key image => ?_⟩
  rw [hentries, mem_put, h.mem]
  simp only [List.mem_append, List.mem_singleton, Prod.mk.injEq]
  constructor
  · rintro (⟨rfl, rfl⟩ | ⟨⟨u, hu, hrest⟩, -⟩)
    · exact ⟨t, .inr rfl, rfl, p, hp, rfl⟩
    · exact ⟨u, .inl hu, hrest⟩
  · rintro ⟨u, hu, rfl, q, hq, rfl⟩
    by_cases hkey : u.key = t.key
    · have hq' : u.compile = .ok p := hu.elim (fun hu => hsame u hu hkey) fun hut => hut ▸ hp
      exact .inl ⟨hkey, congrArg Image.encode (Except.ok.inj (hq.symm.trans hq'))⟩
    · exact .inr ⟨⟨u, hu.resolve_right fun hut => hkey (hut ▸ rfl), rfl, q, hq, rfl⟩, hkey⟩

end Reflects

/-! ## Calls -/

/-- A call: the cache that it found, the tree and the answer, and the cache that it left. -/
structure Call where
  before : Cache
  tree : Tree
  answer : Except (Stop CompileError) Compiled
  after : Cache

/-- The answer of a call came from the cache. -/
def Call.cached (call : Call) : Bool :=
  match call.answer with
  | .ok answer => answer.cached
  | .error _ => false

/-- The call found no entry under the key of its tree. -/
def Call.missed (call : Call) : Bool := (call.before.image? call.tree.key).isNone

/-- The call of a cache for a tree. -/
def call (c : Cache) (t : Tree) : Call := ⟨c, t, (c.compile t).1, (c.compile t).2⟩

/-- The calls of a cache for some trees, one after the other. -/
def history (c : Cache) : List Tree → List Call
  | [] => []
  | t :: rest => c.call t :: history (c.call t).after rest

/-- The cache after calls for some trees. -/
def served (c : Cache) (ts : List Tree) : Cache := ts.foldl (fun c t => (c.call t).after) c

/-- The cache does not show in a call, after some trees were compiled before it. -/
structure Call.Transparent (earlier : List Tree) (call : Call) : Prop where
  /-- The answer is what compiling the tree gives; doubles from the cache have gone through an image. -/
  answer : call.answer =
    call.tree.compile.map fun p => ⟨if call.cached then p.map Instr.reloaded else p, call.cached⟩
  failed : ∀ e, call.tree.compile = .error e → call.after.entries = call.before.entries
  cached : call.cached = true ↔ ∃ u ∈ earlier, u.key = call.tree.key ∧
    ∃ p q, u.compile = .ok p ∧ Image.decode (Image.encode p) = .ok q
  missed : call.missed = true ↔ ∀ u ∈ earlier, u.key = call.tree.key → ∀ p, u.compile ≠ .ok p

/-! A call takes one of three ways, and in two of them the tree is compiled. -/

theorem compile_of_miss (h : c.image? t.key = none) : c.compile t = match t.compile with
    | .error e => (.error e, { c with misses := c.misses + 1 })
    | .ok p => (.ok ⟨p, false⟩, ({ c with misses := c.misses + 1 } : Cache).put t.key p) := by
  cases ht : t.compile <;> simp only [compile, get, h, ht]

theorem compile_of_unreadable {e : ImageError} (h : c.image? t.key = some image) (he : Image.decode image = .error e) :
    c.compile t = match t.compile with
      | .error e => (.error e, c)
      | .ok p => (.ok ⟨p, false⟩, c.put t.key p) := by
  cases ht : t.compile <;> simp only [compile, get, h, he, ht]

theorem compile_of_hit (h : c.image? t.key = some image) (hq : Image.decode image = .ok q) :
    c.compile t = (.ok ⟨q, true⟩, { c with hits := c.hits + 1 }) := by
  rw [compile, get, h]
  simp only [hq]

/-- A tree that is not answered from the cache is compiled, and its image is put under its key. -/
theorem compile_of_fresh (h : ∀ image q, c.image? t.key = some image → Image.decode image ≠ .ok q) :
    ∃ c' : Cache, c'.entries = c.entries ∧ c.compile t = match t.compile with
      | .error e => (.error e, c')
      | .ok p => (.ok ⟨p, false⟩, c'.put t.key p) := by
  cases himage : c.image? t.key with
  | none => exact ⟨{ c with misses := c.misses + 1 }, rfl, compile_of_miss himage⟩
  | some image =>
    cases hq : Image.decode image with
    | error e => exact ⟨c, rfl, compile_of_unreadable himage hq⟩
    | ok q => exact absurd hq (h image q himage)

namespace Reflects

theorem image?_eq_some (h : Reflects earlier c) :
    c.image? key = some image ↔ ∃ u ∈ earlier, u.key = key ∧ ∃ p, u.compile = .ok p ∧ image = Image.encode p :=
  (image?_eq_some_iff h.nodup).trans (h.mem key image)

/-- A call finds no entry if no tree before with its key compiled. -/
theorem missed_iff (h : Reflects earlier c) :
    (c.call t).missed = true ↔ ∀ u ∈ earlier, u.key = t.key → ∀ p, u.compile ≠ .ok p := by
  rw [Call.missed, Option.isNone_iff_eq_none, Option.eq_none_iff_forall_ne_some]
  constructor
  · intro hnone u hu hkey p hp
    exact hnone _ (h.image?_eq_some.2 ⟨u, hu, hkey, p, hp, rfl⟩)
  · intro hnew image himage
    obtain ⟨u, hu, hkey, p, hp, -⟩ := h.image?_eq_some.1 himage
    exact hnew u hu hkey p hp

/-- A tree is answered from the cache if the image of one with its key can be loaded. -/
theorem hit_iff (h : Reflects earlier c) :
    (∃ image q, c.image? t.key = some image ∧ Image.decode image = .ok q) ↔ ∃ u ∈ earlier, u.key = t.key ∧
      ∃ p q, u.compile = .ok p ∧ Image.decode (Image.encode p) = .ok q := by
  constructor
  · rintro ⟨image, q, himage, hq⟩
    obtain ⟨u, hu, hkey, p, hp, rfl⟩ := h.image?_eq_some.1 himage
    exact ⟨u, hu, hkey, p, q, hp, hq⟩
  · rintro ⟨u, hu, hkey, p, q, hp, hq⟩
    exact ⟨_, q, h.image?_eq_some.2 ⟨u, hu, hkey, p, hp, rfl⟩, hq⟩

/-- One call: the entries reflect one more tree, and the cache does not show. -/
theorem call (h : Reflects earlier c) (hsame : ∀ u ∈ earlier, u.key = t.key → u.compile = t.compile)
    (hfits : ∀ p, t.compile = .ok p → p.Fits) :
    Reflects (earlier ++ [t]) (c.call t).after ∧ (c.call t).Transparent earlier := by
  by_cases hhit : ∃ image q, c.image? t.key = some image ∧ Image.decode image = .ok q
  · obtain ⟨image, q, himage, hq⟩ := hhit
    have hcompile := compile_of_hit himage hq
    obtain ⟨u, hu, hkey, p, hp, rfl⟩ := h.image?_eq_some.1 himage
    have ht : t.compile = .ok p := (hsame u hu hkey).symm.trans hp
    have hreloaded := Tree.eq_of_decode_compile ht (hfits p ht) hq
    refine ⟨h.repeated ht (mem_of_image? himage) (by rw [Cache.call, hcompile]), ?_, fun e he => ?_,
      iff_of_true ?_ (h.hit_iff.1 ⟨_, q, himage, hq⟩), h.missed_iff⟩
    · simp [Cache.call, Call.cached, hcompile, ht, Except.map, hreloaded]
    · cases ht.symm.trans he
    · simp [Call.cached, Cache.call, hcompile]
  · obtain ⟨c', hentries, hcompile⟩ := compile_of_fresh fun image q himage hq => hhit ⟨image, q, himage, hq⟩
    have hserved := mt h.hit_iff.2 hhit
    cases ht : t.compile with
    | error e =>
      rw [ht] at hcompile
      refine ⟨h.skip ht (by rw [Cache.call, hcompile, hentries]), ?_, fun _ _ => by rw [Cache.call, hcompile, hentries],
        iff_of_false ?_ hserved, h.missed_iff⟩
      · simp [Cache.call, hcompile, ht, Except.map]
      · simp [Call.cached, Cache.call, hcompile]
    | ok p =>
      rw [ht] at hcompile
      have hput : (c'.put t.key p).entries = (c.put t.key p).entries := by rw [Cache.put, Cache.put, hentries]
      refine ⟨h.put ht (fun u hu hkey => (hsame u hu hkey).trans ht) (by rw [Cache.call, hcompile, hput]), ?_,
        fun e he => ?_, iff_of_false ?_ hserved, h.missed_iff⟩
      · simp [Cache.call, Call.cached, hcompile, ht, Except.map]
      · cases ht.symm.trans he
      · simp [Call.cached, Cache.call, hcompile]

end Reflects

/-- The counters of one call. -/
theorem call_counts (c : Cache) (t : Tree) :
    (c.call t).after.hits = c.hits + (if (c.call t).cached then 1 else 0) ∧
      (c.call t).after.misses = c.misses + (if (c.call t).missed then 1 else 0) := by
  cases himage : c.image? t.key with
  | none =>
    have hcompile := compile_of_miss himage
    cases ht : t.compile <;> rw [ht] at hcompile <;> simp [Cache.call, Call.cached, Call.missed, hcompile, himage, put]
  | some image =>
    cases hq : Image.decode image with
    | error e =>
      have hcompile := compile_of_unreadable himage hq
      cases ht : t.compile <;> rw [ht] at hcompile <;>
        simp [Cache.call, Call.cached, Call.missed, hcompile, himage, put]
    | ok q => simp [Cache.call, Call.cached, Call.missed, compile_of_hit himage hq, himage]

/-! ## Histories -/

theorem map_tree_history (c : Cache) (ts : List Tree) : (c.history ts).map Call.tree = ts := by
  induction ts generalizing c with
  | nil => rfl
  | cons t ts ih => rw [history, List.map_cons, ih, Cache.call]

theorem served_counts (c : Cache) (ts : List Tree) :
    (c.served ts).hits = c.hits + (c.history ts).countP Call.cached ∧
      (c.served ts).misses = c.misses + (c.history ts).countP Call.missed := by
  induction ts generalizing c with
  | nil => exact ⟨rfl, rfl⟩
  | cons t ts ih =>
    obtain ⟨hhits, hmisses⟩ := call_counts c t
    obtain ⟨ihhits, ihmisses⟩ := ih (c.call t).after
    have hserved : c.served (t :: ts) = (c.call t).after.served ts := rfl
    rw [hserved, history, List.countP_cons, List.countP_cons, ihhits, ihmisses, hhits, hmisses]
    omega

/-- A whole history, call by call. -/
theorem Reflects.history (h : Reflects earlier c)
    (hsame : ∀ t ∈ earlier ++ ts, ∀ u ∈ earlier ++ ts, t.key = u.key → t.compile = u.compile)
    (hfits : ∀ t ∈ ts, ∀ p, t.compile = .ok p → p.Fits) :
    Reflects (earlier ++ ts) (c.served ts) ∧
      ∀ (k : Nat) (call : Call), (c.history ts)[k]? = some call → call.Transparent (earlier ++ ts.take k) := by
  induction ts generalizing earlier c with
  | nil => exact ⟨by simpa [served] using h, by simp [Cache.history]⟩
  | cons t ts ih =>
    obtain ⟨hafter, htransparent⟩ := h.call
      (fun u hu hkey => hsame u (by simp [hu]) t (by simp) hkey) (hfits t List.mem_cons_self)
    obtain ⟨hrest, hcalls⟩ := ih hafter (by simpa using hsame) fun u hu => hfits u (List.mem_cons_of_mem t hu)
    rw [List.append_assoc, List.singleton_append] at hrest
    refine ⟨hrest, fun k call hcall => ?_⟩
    cases k with
    | zero =>
      obtain rfl : c.call t = call := by simpa [Cache.history] using hcall
      simpa using htransparent
    | succ k => simpa using hcalls k call (by simpa [Cache.history] using hcall)

/-- There is one entry for each key of a tree that compiled. -/
theorem Reflects.size_eq (h : Reflects ts c) :
    c.size = {key | ∃ t ∈ ts, t.key = key ∧ ∃ p, t.compile = .ok p}.ncard := by
  have hset : {key | ∃ t ∈ ts, t.key = key ∧ ∃ p, t.compile = .ok p} =
      ((c.entries.map Prod.fst).toFinset : Set Text) := by
    ext key
    simp only [Set.mem_ofPred_eq, List.coe_toFinset, List.mem_map, Prod.exists, exists_and_right, exists_eq_right]
    constructor
    · rintro ⟨t, ht, rfl, p, hp⟩
      exact ⟨_, (h.mem _ _).2 ⟨t, ht, rfl, p, hp, rfl⟩⟩
    · rintro ⟨image, hmem⟩
      obtain ⟨t, ht, hkey, p, hp, -⟩ := (h.mem _ _).1 hmem
      exact ⟨t, ht, hkey, p, hp⟩
  rw [hset, Set.ncard_coe_finset, List.toFinset_card_of_nodup h.nodup, List.length_map, size]

/-- A cache that is empty at first does not show in any call, however many trees it serves, as long as trees with one
key compile to one result. It ends up with an entry for each key of a tree that compiled, and it has counted the answers
that it gave itself and the calls whose key had no entry. -/
theorem history_transparent (ts : List Tree) (hsame : ∀ t ∈ ts, ∀ u ∈ ts, t.key = u.key → t.compile = u.compile)
    (hfits : ∀ t ∈ ts, ∀ p, t.compile = .ok p → p.Fits) :
    (history {} ts).map Call.tree = ts ∧
      (∀ (k : Nat) (call : Call), (history {} ts)[k]? = some call → call.Transparent (ts.take k)) ∧
      (served {} ts).size = {key | ∃ t ∈ ts, t.key = key ∧ ∃ p, t.compile = .ok p}.ncard ∧
      (served {} ts).hits = (history {} ts).countP Call.cached ∧
      (served {} ts).misses = (history {} ts).countP Call.missed := by
  have hempty : Reflects [] {} := ⟨List.nodup_nil, by simp⟩
  obtain ⟨hreflects, hcalls⟩ := hempty.history hsame hfits
  obtain ⟨hhits, hmisses⟩ := served_counts {} ts
  exact ⟨map_tree_history {} ts, hcalls, hreflects.size_eq, by simpa using hhits, by simpa using hmisses⟩

/-- The choosing program is compiled once: the second call for it is answered from the cache. -/
theorem history_transparent_chooser :
    (∀ p, Tree.chooser.compile = .ok p → p.Fits) ∧
      (history {} [.chooser, .chooser]).map Call.cached = [false, true] ∧
      (served {} [.chooser, .chooser]).size = 1 := by
  obtain ⟨program, hprogram, hall⟩ := Tree.compile_of_any (t := .chooser)
    (p := fun p => p.length ≤ Cbor.maxElements && p.all fun i => i.IsStorable && i.arity ≤ maxFrameSlots)
    (by decide +kernel)
  simp only [Bool.and_eq_true, decide_eq_true_eq, List.all_eq_true] at hall
  obtain ⟨hlength, hinstr⟩ := hall
  have hfits : ∀ p, Tree.chooser.compile = .ok p → p.Fits := by
    intro p hp
    obtain rfl := Except.ok.inj (hprogram.symm.trans hp)
    exact ⟨hlength.trans_lt (by decide), fun i hi => ⟨(hinstr i hi).1.val.str.1, (hinstr i hi).1.sym.1⟩⟩
  have hvalid := (Tree.compile_valid_iff hprogram).2 fun n hn => Int.ofNat_le.1 (hinstr _ hn).2
  have hdecode := (Image.decode_encode program hlength fun i hi => (hinstr i hi).1).1 hvalid
  obtain ⟨-, hcalls, hsize, -⟩ := history_transparent [.chooser, .chooser] (by simp) (by simpa using hfits)
  have hfirst := (hcalls 0 _ rfl).cached
  have hsecond := (hcalls 1 _ rfl).cached
  refine ⟨hfits, ?_, ?_⟩
  · have hmiss : ((history {} [.chooser, .chooser])[0]).cached = false := by
      rw [← Bool.not_eq_true]
      exact fun hcached => by simpa using hfirst.1 hcached
    have hhit : ((history {} [.chooser, .chooser])[1]).cached = true :=
      hsecond.2 ⟨.chooser, by simp, rfl, program, _, hprogram, hdecode⟩
    exact congrArg₂ (fun a b => [a, b]) hmiss hhit
  · have hset : {key | ∃ t ∈ [Tree.chooser, .chooser], t.key = key ∧ ∃ p, t.compile = .ok p} = {Tree.chooser.key} := by
      ext key
      simp [hprogram, eq_comm]
    rw [hsize, hset, Set.ncard_singleton]

end Cache

end Tenure
