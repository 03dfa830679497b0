import Mathlib.Data.List.Perm.Basic
import Tenure.Proofs.Order.Checks
import Tenure.Proofs.Typing.Programs

/-!
# The items of a crate in another order

The check of a crate declares all its functions before it checks the first, so each item is checked under the same
globals wherever it stands. Hence what is found in a crate of functions does not depend on their order: there are no
complaints about it in one order if there are none in another (`Tree.Reordered.complaints`).
-/

set_option autoImplicit false

namespace Tenure

/-! ## Lists of pairs with different keys -/

section Keys

variable {α β : Type} [DecidableEq α] {l l' : List (α × β)} {e : α × β} {a : α}

theorem find?_of_mem (h : (l.map Prod.fst).Nodup) (he : e ∈ l) : l.find? (fun x => x.1 = e.1) = some e := by
  induction l with
  | nil => cases he
  | cons x rest ih =>
    rw [List.map_cons, List.nodup_cons] at h
    rcases List.mem_cons.mp he with rfl | he
    · simp
    · have hne : x.1 ≠ e.1 := fun heq => h.1 (heq ▸ List.mem_map_of_mem he)
      rw [List.find?_cons_of_neg (by simpa using hne)]
      exact ih h.2 he

/-- The pair of a key does not depend on the order of the pairs. -/
theorem find?_perm (h : (l.map Prod.fst).Nodup) (hperm : l.Perm l') :
    l'.find? (fun x => x.1 = a) = l.find? fun x => x.1 = a := by
  cases hfind : l.find? fun x => x.1 = a with
  | none =>
    rw [List.find?_eq_none] at hfind ⊢
    exact fun x hx => hfind x (hperm.mem_iff.mpr hx)
  | some e =>
    obtain rfl : e.1 = a := by simpa using List.find?_some hfind
    exact find?_of_mem ((hperm.map Prod.fst).nodup_iff.mp h) (hperm.mem_iff.mp (List.mem_of_find?_eq_some hfind))

end Keys

namespace Check

variable {c c' c₁ : Checker} {t : Tree} {ts : List Tree} {known known' entries : List (Text × Signature)}

/-! ## The globals -/

/-- A function item has a name and a signature about which there are no complaints. -/
def HasEntry (t : Tree) (entry : Text × Signature) : Prop :=
  t.name = .ok entry.1 ∧ ∀ c, Clean (signature t) c entry.2 c

theorem name_of_entries (h : List.Forall₂ HasEntry ts entries) : ∀ e ∈ ts, ∃ name, e.name = .ok name := by
  induction h with
  | nil => exact nofun
  | cons hfirst _ ih => exact List.forall_mem_cons.mpr ⟨⟨_, hfirst.1⟩, ih⟩

/-- The scopes after the declaration of some functions. -/
def globals (s : Scopes) (entries : List (Text × Signature)) : Scopes :=
  entries.foldl (fun s e => s.defineGlobal e.1 e.2.type) s

/-- The declaration of the functions of a crate is clean if they have different names, and each a signature. -/
theorem clean_declareGlobals : Clean (declareGlobals ts known) c known' c' ↔
    ∃ entries, List.Forall₂ HasEntry ts entries ∧ (entries.map Prod.fst).Nodup ∧
      (∀ e ∈ entries, ∀ k ∈ known, k.1 ≠ e.1) ∧ known' = known ++ entries ∧
      c' = { c with scopes := globals c.scopes entries } := by
  induction ts generalizing known c with
  | nil =>
    rw [declareGlobals, clean_pure]
    constructor
    · rintro ⟨rfl, rfl⟩
      exact ⟨[], .nil, .nil, by simp, by simp, rfl⟩
    · rintro ⟨_, hentries, -, -, rfl, rfl⟩
      cases hentries
      exact ⟨by simp, rfl⟩
  | cons t rest ih =>
    rw [declareGlobals, clean_lift_bind]
    constructor
    · rintro ⟨name, hname, h⟩
      split at h
      · exact absurd h clean_report_bind
      next hfresh =>
        simp only [clean_bind, clean_onScopes] at h
        obtain ⟨s, c₁, hsignature, _, _, rfl, hrest⟩ := h
        obtain rfl := (signature_ok hsignature).1
        obtain ⟨entries, hdeclares, hnodup, hnew, rfl, rfl⟩ := ih.mp hrest
        refine ⟨(name, s) :: entries, .cons ⟨hname, fun d => ((Writes.signature t).clean hsignature).2⟩ hdeclares, ?_, ?_,
          by simp, rfl⟩
        · refine List.nodup_cons.mpr ⟨fun hmem => ?_, hnodup⟩
          obtain ⟨e, he, heq⟩ := List.mem_map.mp hmem
          exact hnew e he (name, s) (by simp) heq.symm
        · intro e he k hk
          rcases List.mem_cons.mp he with rfl | he
          · rintro rfl
            exact hfresh (List.any_eq_true.mpr ⟨k, hk, by simp⟩)
          · exact hnew e he k (List.mem_append_left _ hk)
    · rintro ⟨_, hentries, hnodup, hnew, rfl, rfl⟩
      cases hentries with
      | @cons _ e _ entries hfirst hrest =>
        rw [List.map_cons, List.nodup_cons] at hnodup
        have hfresh : ¬ (known.any fun entry => entry.1 = e.1) = true := fun hany => by
          obtain ⟨k, hk, heq⟩ := List.any_eq_true.mp hany
          exact hnew e (List.mem_cons_self ..) k hk (of_decide_eq_true heq)
        refine ⟨e.1, hfirst.1, ?_⟩
        rw [if_neg hfresh]
        simp only [clean_bind, clean_onScopes]
        refine ⟨e.2, c, hfirst.2 c, (), _, rfl, ih.mpr ⟨entries, hrest, hnodup.2, fun e' he' k hk => ?_, by simp, rfl⟩⟩
        rcases List.mem_append.mp hk with hk | hk
        · exact hnew e' (List.mem_cons_of_mem _ he') k hk
        · obtain rfl := List.mem_singleton.mp hk
          exact fun heq => hnodup.1 (heq ▸ List.mem_map_of_mem he')

/-- What a name is bound to after the declaration of functions with different names. -/
theorem find?_globals {s : Scopes} (hnodup : (entries.map Prod.fst).Nodup) (name : Text) :
    ((globals s entries).global.find? name).map (fun b => (b.type, b.mutable)) =
      ((entries.find? fun e => e.1 = name).map fun e => (e.2.type, false)).or
        ((s.global.find? name).map fun b => (b.type, b.mutable)) := by
  induction entries generalizing s with
  | nil => rfl
  | cons e rest ih =>
    rw [List.map_cons, List.nodup_cons] at hnodup
    rw [globals, List.foldl_cons]
    refine (ih hnodup.2).trans ?_
    by_cases heq : e.1 = name
    · subst heq
      have hnone : rest.find? (fun x => x.1 = e.1) = none :=
        List.find?_eq_none.mpr fun x hx hname => hnodup.1 (of_decide_eq_true hname ▸ List.mem_map_of_mem hx)
      simp [hnone, Scopes.defineGlobal, Scope.find?]
    · rw [List.find?_cons_of_neg (by simpa using heq)]
      simp [heq, Scopes.defineGlobal, Scope.find?]

/-- A state between the checks of two items of a crate with a global scope. -/
structure Resting (g : Scope) (c : Checker) : Prop where
  inner : c.scopes.inner = []
  global : c.scopes.global = g
  functions : c.functions = []
  loops : c.loops = 0
  earlier : ∀ entry ∈ g, entry.2.serial < c.scopes.declared
  settled : ∀ entry ∈ g, entry.2.serial ∉ c.scopes.awaiting
  below : ∀ n ∈ c.scopes.awaiting, n < c.scopes.declared

theorem Resting.globals (h : Resting c.scopes.global c) (hawaiting : c.scopes.awaiting = [])
    (entries : List (Text × Signature)) :
    Resting (globals c.scopes entries).global { c with scopes := Check.globals c.scopes entries } := by
  induction entries generalizing c with
  | nil => exact h
  | cons e rest ih =>
    refine ih (c := { c with scopes := c.scopes.defineGlobal e.1 e.2.type })
      ⟨h.inner, rfl, h.functions, h.loops, fun entry hentry => ?_, fun entry _ => ?_, fun n hn => ?_⟩ hawaiting
    · rcases List.mem_cons.mp hentry with rfl | hentry
      · exact Nat.lt_succ_self _
      · exact Nat.lt_succ_of_lt (h.earlier entry hentry)
    · simp [Scopes.defineGlobal, hawaiting]
    · exact Nat.lt_succ_of_lt (h.below n hn)

/-- Only the builtins are known at first. -/
theorem initial_resting : Resting Checker.initial.scopes.global Checker.initial where
  inner := rfl
  global := rfl
  functions := rfl
  loops := rfl
  earlier := by decide
  settled := by decide
  below := nofun

/-! ## Functions in another order -/

/-- Two global scopes give every name the same type. -/
def Agreeing (g g' : Scope) : Prop :=
  ∀ name, (g'.find? name).map (fun b => (b.type, b.mutable)) = (g.find? name).map fun b => (b.type, b.mutable)

variable {g g' : Scope} {depth : Nat}

theorem Agreeing.starts (h : Agreeing g g') (hc : Resting g c) (hc' : Resting g' c') : Starts c c' where
  lookups name := by
    have hname := h name
    rw [hc.global, hc'.global]
    cases hx : g.find? name <;> cases hy : g'.find? name <;> rw [hx, hy] at hname
    · exact .none
    · cases hname
    · cases hname
    · simp only [Option.map_some, Option.some.injEq, Prod.mk.injEq] at hname
      exact .some hname
  earlier := hc.global ▸ hc.earlier
  earlier' := hc'.global ▸ hc'.earlier

/-- A function about which there are no complaints in one place of a crate is checked without complaints in any. -/
theorem Resting.function (h : Agreeing g g') (hc : Resting g c) (hc' : Resting g' c') (ht : t.crateless = true)
    {s : Signature} {u : Unit} (hclean : Clean (function (toDepth depth) t s) c u c₁) :
    ∃ c₁', Clean (function (toDepth depth) t s) c' u c₁' ∧ Resting g c₁ ∧ Resting g' c₁' := by
  have hstart := h.starts hc hc'
  have htwins : Twins c c' ⟨0, [], 0, 0, 0⟩ c c' :=
    { inner := by rw [hc.inner, hc'.inner]; exact .nil
      depth := by rw [hc.inner]; rfl
      global := rfl
      global' := rfl
      awaiting :=
        { same := fun k => ⟨fun hk => absurd (hc.below _ hk) (by omega), fun hk => absurd (hc'.below _ hk) (by omega)⟩
          settled := hc.global ▸ hc.settled
          settled' := hc'.global ▸ hc'.settled }
      below := hc.below
      below' := hc'.below
      seen := Nat.zero_le _
      seen' := Nat.zero_le _
      declared := ⟨0, rfl, rfl⟩
      functions := hc.functions
      functions' := hc'.functions
      loops := hc.loops
      loops' := hc'.loops
      errors := ⟨[], by simp, by simp⟩ }
  have hvisit : ∀ e : Tree, e.crateless = true → ∀ l, 0 < l.depth → Alike c c' l l (toDepth depth e) (toDepth depth e) :=
    fun e he l hl => toDepth_alike hstart depth he hl
  obtain ⟨hsame, hnext⟩ := (function_alike hvisit ht s).runs c c' htwins
  obtain ⟨hrun, herrors⟩ := hclean
  rw [hrun] at hsame hnext
  have hend := hnext u rfl
  generalize hrun' : Check.function (toDepth depth) t s c' = r at hsame hend
  obtain ⟨result, c₁'⟩ := r
  cases hsame
  obtain ⟨es, hes, hes'⟩ := hend.errors
  obtain rfl : es = [] := by simpa [herrors] using hes
  have hinner : c₁.scopes.inner = [] := List.length_eq_zero_iff.mp hend.depth
  have hinner' : c₁'.scopes.inner = [] := by
    have hinners := hend.inner
    rw [hinner] at hinners
    exact List.forall₂_nil_left_iff.mp hinners
  obtain ⟨k, hk, hk'⟩ := hend.declared
  have hlater : ∀ {g : Scope} {c c₁ : Checker}, Resting g c → c₁.scopes.declared = c.scopes.declared + k →
      ∀ entry ∈ g, entry.2.serial < c₁.scopes.declared := by
    intro g c c₁ hc hk entry hentry
    have := hc.earlier entry hentry
    omega
  refine ⟨c₁', ⟨hrun', by simpa using hes'⟩, ⟨hinner, hend.global.trans hc.global, hend.functions, hend.loops,
    hlater hc hk, hc.global ▸ hend.awaiting.settled, hend.below⟩, ⟨hinner', hend.global'.trans hc'.global, hend.functions',
    hend.loops', hlater hc' hk', hc'.global ▸ hend.awaiting.settled', hend.below'⟩⟩

/-- A function passes its check in every state between two items. -/
def Passes (depth : Nat) (known : List (Text × Signature)) (g : Scope) (t : Tree) : Prop :=
  ∀ name, t.name = .ok name → ∀ c, Resting g c →
    ∃ c', Clean (function (toDepth depth) t (knownAs known name)) c () c' ∧ Resting g c'

/-- Functions pass their checks one after the other in whatever order they stand. -/
theorem Passes.crateFunctions {order : List Tree} (h : ∀ t ∈ order, Passes depth known g t ∧ ∃ name, t.name = .ok name)
    (hc : Resting g c) : ∃ c', Clean (crateFunctions (toDepth depth) known order) c () c' ∧ Resting g c' := by
  induction order generalizing c with
  | nil => exact ⟨c, clean_pure.mpr ⟨rfl, rfl⟩, hc⟩
  | cons t rest ih =>
    obtain ⟨hpasses, name, hname⟩ := h t (List.mem_cons_self ..)
    obtain ⟨c₁, hclean, hc₁⟩ := hpasses name hname c hc
    obtain ⟨c', hrest, hc'⟩ := ih (fun e he => h e (List.mem_cons_of_mem _ he)) hc₁
    exact ⟨c', clean_lift_bind.mpr ⟨name, hname, clean_bind.mpr ⟨(), c₁, hclean, hrest⟩⟩, hc'⟩

/-- Functions that were checked without complaints pass under all globals that agree with those of the check. -/
theorem crateFunctions_passes {order : List Tree} (h : Agreeing g g') (hc : Resting g c)
    (hcrateless : ∀ t ∈ order, t.crateless = true) (hsame : ∀ name, knownAs known' name = knownAs known name)
    {u : Unit} (hclean : Clean (crateFunctions (toDepth depth) known order) c u c₁) :
    ∀ t ∈ order, Passes depth known' g' t := by
  induction order generalizing c with
  | nil => exact nofun
  | cons t rest ih =>
    obtain ⟨name, hname, hclean⟩ := clean_lift_bind.mp hclean
    obtain ⟨v, c₂, hfunction, hrest⟩ := clean_bind.mp hclean
    have ht := hcrateless t (List.mem_cons_self ..)
    have hpasses := fun c' (hc' : Resting g' c') => hc.function h hc' ht hfunction
    have hself : Agreeing g g := fun _ => rfl
    obtain ⟨_, -, hc₂, -⟩ := hc.function hself hc ht hfunction
    intro e he
    rcases List.mem_cons.mp he with rfl | he
    · intro name' hname' c' hc'
      cases hname.symm.trans hname'
      obtain ⟨c₁', hclean', -, hc₁'⟩ := hpasses c' hc'
      exact ⟨c₁', (hsame name).symm ▸ hclean', hc₁'⟩
    · exact ih hc₂ (fun e he => hcrateless e (List.mem_cons_of_mem _ he)) hrest e he

/-- The first function of a name is found if there is one. -/
theorem splitNamed_of_mem {name : Text} {m : Tree} (hnames : ∀ t ∈ ts, ∃ n, t.name = .ok n) (hm : m ∈ ts)
    (hname : m.name = .ok name) : ∃ found others, splitNamed name ts = .ok (some found, others) := by
  induction ts with
  | nil => cases hm
  | cons t rest ih =>
    obtain ⟨n, hn⟩ := hnames t (List.mem_cons_self ..)
    simp only [splitNamed, hn, bind, Except.bind, pure, Except.pure]
    by_cases heq : n = name
    · exact ⟨t, rest, by rw [if_pos heq]⟩
    · rw [if_neg heq]
      have hm : m ∈ rest := by
        rcases List.mem_cons.mp hm with rfl | hm
        · exact absurd (Except.ok.inj (hn.symm.trans hname)) heq
        · exact hm
      obtain ⟨found, others, hsplit⟩ := ih (fun e he => hnames e (List.mem_cons_of_mem _ he)) hm
      exact ⟨found, t :: others, by rw [hsplit]⟩

end Check

namespace Tree

/-- Two crates of the same functions, which may stand in another order. There are no crates inside. -/
structure Reordered (t t' : Tree) : Prop where
  crate : t.form = .ok .crate
  crate' : t'.form = .ok .crate
  items : t.children.Perm t'.children
  functions : ∀ e ∈ t.children, e.form = .ok .function
  crateless : ∀ e ∈ t.children, e.crateless = true

/-- There are no complaints about a program whose check finds nothing. -/
theorem complaints_of_clean {t : Tree} {τ : Ty} {c : Checker}
    (h : Check.Clean (Check.toDepth t.height t) Checker.initial τ c) : t.complaints = .ok [] := by
  obtain ⟨hrun, herrors⟩ := h
  have hnode : Checker.initial.checkNode t = (.ok τ, c) := hrun
  rw [complaints, Checker.checkProgram, hnode]
  exact congrArg Except.ok herrors

namespace Reordered

variable {t t' : Tree}

theorem symm (h : Reordered t t') : Reordered t' t where
  crate := h.crate'
  crate' := h.crate
  items := h.items.symm
  functions e he := h.functions e (h.items.mem_iff.mpr he)
  crateless e he := h.crateless e (h.items.mem_iff.mpr he)

theorem heights_perm {ts ts' : List Tree} (h : ts.Perm ts') : heights ts' = heights ts := by
  induction h with
  | nil => rfl
  | cons t _ ih => simp only [heights, ih]
  | swap a b rest => simp only [heights, Nat.max_left_comm]
  | trans _ _ ih ih' => exact ih'.trans ih

theorem height (h : Reordered t t') : t'.height = t.height := by
  obtain ⟨tag, children, val, type, rfl, -⟩ := of_form h.crate
  obtain ⟨tag', children', val', type', rfl, -⟩ := of_form h.crate'
  exact congrArg (· + 1) (heights_perm h.items)

/-- Complaints do not depend on the order of the items. -/
theorem complaints (h : Reordered t t') (hclean : t.complaints = .ok []) : t'.complaints = .ok [] := by
  obtain ⟨τ, c', hcheck⟩ := complaints_clean hclean
  obtain ⟨depth, hheight⟩ := depth_of_form h.crate (Nat.le_refl _)
  rw [hheight, Check.toDepth_of_form h.crate] at hcheck
  obtain ⟨-, known, c₁, m, others, c₂, hglobals, hsplit, hchecked, hmain⟩ := (clean_crate h.functions).mp hcheck
  obtain ⟨hfound, hothers, hall⟩ := mem_of_splitNamed hsplit
  have hlast := (hfound m rfl).1
  have hitem : ∀ e, e ∈ others ++ [m] ↔ e ∈ t.children := by
    intro e
    rw [List.mem_append, List.mem_singleton]
    refine ⟨?_, fun he => (hall e he).imp_right fun he => (Option.some.inj he).symm⟩
    rintro (he | rfl)
    · exact hothers e he
    · exact (hfound e rfl).2
  have hrun := crateFunctions_concat hchecked hlast hmain
  -- the same entries in the order of the items of the other crate
  obtain ⟨entries, hentries, hnodup, -, hknown, rfl⟩ := Check.clean_declareGlobals.mp hglobals
  obtain rfl : known = entries := hknown
  obtain ⟨entries', hentries', hperm⟩ := List.perm_comp_forall₂ h.items.symm hentries
  have hnodup' := (hperm.map Prod.fst).nodup_iff.mpr hnodup
  have hknown : ∀ name, Check.knownAs entries' name = Check.knownAs known name := by
    intro name
    rw [Check.knownAs, Check.knownAs, find?_perm hnodup hperm.symm]
  have hagree : Check.Agreeing (Check.globals Checker.initial.scopes known).global
      (Check.globals Checker.initial.scopes entries').global := by
    intro name
    rw [Check.find?_globals hnodup, Check.find?_globals hnodup', find?_perm hnodup hperm.symm]
  have hpasses := Check.crateFunctions_passes hagree (Check.initial_resting.globals rfl known)
    (fun e he => h.crateless e ((hitem e).mp he)) hknown hrun
  have hnames := Check.name_of_entries hentries'
  have hpasses' : ∀ e ∈ t'.children, Check.Passes depth entries' _ e ∧ ∃ name, e.name = .ok name := fun e he =>
    ⟨hpasses e ((hitem e).mpr (h.items.mem_iff.mpr he)), hnames e he⟩
  obtain ⟨m', others', hsplit'⟩ := Check.splitNamed_of_mem hnames (h.items.mem_iff.mp (hfound m rfl).2) hlast
  obtain ⟨hfound', hothers', -⟩ := mem_of_splitNamed hsplit'
  obtain ⟨c₂', hchecked', hc₂'⟩ := Check.Passes.crateFunctions (fun e he => hpasses' e (hothers' e he))
    (Check.initial_resting.globals rfl entries')
  obtain ⟨c₃', hmain', -⟩ := (hpasses' m' (hfound' m' rfl).2).1 "main" (hfound' m' rfl).1 c₂' hc₂'
  have hglobals' : Check.Clean (Check.declareGlobals t'.children []) Checker.initial entries' _ :=
    Check.clean_declareGlobals.mpr
      ⟨entries', hentries', hnodup', fun _ _ _ hk => absurd hk List.not_mem_nil, rfl, rfl⟩
  have hcheck' := (clean_crate h.symm.functions).mpr ⟨rfl, _, _, _, _, _, hglobals', hsplit', hchecked', hmain'⟩
  rw [← Check.rule, ← Check.toDepth_of_form h.crate', ← hheight, ← h.height] at hcheck'
  exact complaints_of_clean hcheck'

end Reordered

end Tree

end Tenure
