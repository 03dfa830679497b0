import Tenure.Proofs.Compile.Plain
import Tenure.Proofs.Compile.Steps
import Tenure.Proofs.Tree.Canonical
import Tenure.Tree.Build

/-!
# What a key determines

The key of a tree stands for its canonical form, in which a numeral and its text are the same. The canonical form
determines the program of a tree up to the literal kinds that are left out, since these are guessed from the difference:
`Tree.compile_eq_of_encode_eq`. Where the guesses differ, two trees with one key can be different programs.
-/

set_option autoImplicit false

namespace Tenure

namespace Tree

mutual

/-- The literal kinds that are guessed in a tree. -/
def guessedKinds : Tree → List Text
  | .absent => []
  | .node tag children val type =>
    (if guessesKind tag type then [Literal.guessKind val] else []) ++ guessedKindsAll children

/-- The literal kinds that are guessed in trees. -/
def guessedKindsAll : List Tree → List Text
  | [] => []
  | t :: rest => t.guessedKinds ++ guessedKindsAll rest

end

/-- The kinds that are guessed from a numeral and from its text are not the same. -/
theorem guessKind_numeral_ne (token t : Text) : Literal.guessKind (.numeral token) ≠ Literal.guessKind (.text t) := by
  rw [Literal.guessKind, Literal.guessKind]
  split <;> decide

theorem eq_or_of_plain_eq_text {val : Payload} {t : Text} (h : val.plain = .text t) :
    val = .text t ∨ val = .numeral t := by
  cases val <;> cases h
  · exact .inl rfl
  · exact .inr rfl

/-- What is read back and the kind that is guessed tell whether a payload was a numeral. -/
theorem eq_numeral_of_guessKind {val : Payload} {token : Text} (hplain : val.plain = .text token)
    (hkind : Literal.guessKind val = Literal.guessKind (.numeral token)) : val = .numeral token := by
  rcases eq_or_of_plain_eq_text hplain with rfl | rfl
  · exact absurd hkind.symm (guessKind_numeral_ne token token)
  · rfl

theorem plainVal_eq {tag type : Text} {p q : Payload} (hplain : p.plain = q.plain)
    (hkind : guessesKind tag type = true → Literal.guessKind p = Literal.guessKind q) :
    plainVal tag type p = plainVal tag type q := by
  by_cases hguess : guessesKind tag type = true
  · have hkind := hkind hguess
    by_cases hp : ∃ token, p = .numeral token
    · obtain ⟨token, rfl⟩ := hp
      rw [eq_numeral_of_guessKind hplain.symm hkind.symm]
    · have hq : ∀ token, q ≠ .numeral token := by
        rintro token rfl
        exact hp ⟨token, eq_numeral_of_guessKind hplain hkind⟩
      rw [plainVal_of_ne_numeral fun token htoken => hp ⟨token, htoken⟩, plainVal_of_ne_numeral hq, hplain]
  · rw [plainVal_of_not_guessesKind hguess, plainVal_of_not_guessesKind hguess, hplain]

mutual

/-- Trees that are read back alike and have the same guesses, each in front of others, are alike. -/
theorem plain_eq_of_guessedKinds : (t u : Tree) → {rest after : List Text} → t.reloaded = u.reloaded →
    t.guessedKinds ++ rest = u.guessedKinds ++ after → t.plain = u.plain ∧ rest = after
  | .absent, .absent, _, _, _, hkinds => ⟨rfl, hkinds⟩
  | .absent, .node .., _, _, hreloaded, _ => by cases hreloaded
  | .node .., .absent, _, _, hreloaded, _ => by cases hreloaded
  | .node tag children val type, .node tag' children' val' type', rest, after, hreloaded, hkinds => by
    rw [reloaded, reloaded] at hreloaded
    obtain ⟨rfl, hchildren, hval, rfl⟩ := node.inj hreloaded
    rw [guessedKinds, guessedKinds, List.append_assoc, List.append_assoc] at hkinds
    have hguesses : (guessesKind tag type = true → Literal.guessKind val = Literal.guessKind val') ∧
        guessedKindsAll children ++ rest = guessedKindsAll children' ++ after := by
      cases hguess : guessesKind tag type with
      | false => simpa [hguess] using hkinds
      | true => simpa [hguess] using hkinds
    obtain ⟨hplains, hrest⟩ := plainAll_eq_of_guessedKinds children children' hchildren hguesses.2
    exact ⟨by rw [plain, plain, hplains, plainVal_eq hval hguesses.1], hrest⟩

theorem plainAll_eq_of_guessedKinds : (ts us : List Tree) → {rest after : List Text} →
    reloadedAll ts = reloadedAll us → guessedKindsAll ts ++ rest = guessedKindsAll us ++ after →
      plainAll ts = plainAll us ∧ rest = after
  | [], [], _, _, _, hkinds => ⟨rfl, hkinds⟩
  | [], _ :: _, _, _, hreloaded, _ => by cases hreloaded
  | _ :: _, [], _, _, hreloaded, _ => by cases hreloaded
  | t :: ts, u :: us, rest, after, hreloaded, hkinds => by
    rw [reloadedAll, reloadedAll] at hreloaded
    obtain ⟨hhead, htail⟩ := List.cons.inj hreloaded
    rw [guessedKindsAll, guessedKindsAll, List.append_assoc, List.append_assoc] at hkinds
    obtain ⟨hplain, hkinds⟩ := plain_eq_of_guessedKinds t u hhead hkinds
    obtain ⟨hplains, hrest⟩ := plainAll_eq_of_guessedKinds ts us htail hkinds
    exact ⟨by rw [plainAll, plainAll, hplain, hplains], hrest⟩

end

/-- The canonical form of a tree and the literal kinds that are guessed in it determine its program, or the error with
which it is refused. -/
theorem compile_eq_of_encode_eq {t u : Tree} (ht : t.Portable) (hu : u.Portable)
    (hencode : t.item.encode = u.item.encode) (hkinds : t.guessedKinds = u.guessedKinds) : t.compile = u.compile := by
  have hplain : t.plain = u.plain :=
    (plain_eq_of_guessedKinds t u (ht.reloaded_eq hu hencode) (congrArg (· ++ []) hkinds)).1
  rw [← compile_plain t, hplain, compile_plain]

/-- A program whose result is a literal with a payload and a kind. -/
def answering (val : Payload) (type : Text) : Tree :=
  crate [function "main" [] ∅ (block [.node Form.literal.tag [] val type])]

theorem size_tag_lt (f : Form) : f.tag.size < 2 ^ 64 := by cases f <;> decide

theorem Portable.ofForm {f : Form} {children : List Tree} (hlength : children.length < 2 ^ 64)
    (hchildren : ∀ t ∈ children, t.Portable) : (ofForm f children).Portable :=
  .node (size_tag_lt f) (by decide) .none hlength hchildren

theorem portable_answering {val : Payload} {type : Text} (hval : val.Portable) (htype : type.size < 2 ^ 64) :
    (answering val type).Portable := by
  have hliteral : (Tree.node Form.literal.tag [] val type).Portable :=
    .node (size_tag_lt _) htype hval (by decide) (List.forall_mem_nil _)
  have hname : (ident "main").Portable :=
    .node (size_tag_lt _) (by decide) (.text (by decide)) (by decide) (List.forall_mem_nil _)
  have hbody : (block [.node Form.literal.tag [] val type]).Portable :=
    .ofForm (by simp) (List.forall_mem_singleton.2 hliteral)
  have hmain : (function "main" [] ∅ (block [.node Form.literal.tag [] val type])).Portable :=
    .ofForm (show 2 < 2 ^ 64 by decide) (List.forall_mem_cons.2 ⟨hname, List.forall_mem_singleton.2 hbody⟩)
  exact .ofForm (by simp) (List.forall_mem_singleton.2 hmain)

/-- A literal that says its kind may be a numeral or a text. -/
theorem compile_eq_of_encode_eq_answering :
    answering (.numeral "5") "i32" ≠ answering (.text "5") "i32" ∧ (answering (.numeral "5") "i32").Portable ∧
      (answering (.text "5") "i32").Portable ∧
      (answering (.numeral "5") "i32").item.encode = (answering (.text "5") "i32").item.encode ∧
      (answering (.numeral "5") "i32").guessedKinds = (answering (.text "5") "i32").guessedKinds ∧
      (answering (.numeral "5") "i32").compile = (answering (.text "5") "i32").compile := by
  have hne : answering (.numeral "5") "i32" ≠ answering (.text "5") "i32" := by
    simp [answering, crate, function, block, ofForm]
  have ht : (answering (.numeral "5") "i32").Portable := portable_answering (.numeral (by decide)) (by decide)
  have hu : (answering (.text "5") "i32").Portable := portable_answering (.text (by decide)) (by decide)
  exact ⟨hne, ht, hu, rfl, rfl, compile_eq_of_encode_eq ht hu rfl rfl⟩

/-- Two trees with one key whose programs differ: where the kind is guessed, a numeral is an integer and a text is a
string. -/
theorem same_key_different_programs :
    (answering (.numeral "5") ∅).item.encode = (answering (.text "5") ∅).item.encode ∧
      (answering (.numeral "5") ∅).key = (answering (.text "5") ∅).key ∧
      ∃ p q, (answering (.numeral "5") ∅).compile = .ok p ∧ (answering (.text "5") ∅).compile = .ok q ∧
        Instr.loadConstant (.ofInt 5) ∈ p ∧ Instr.loadConstant (.ofText "5") ∈ q ∧ p ≠ q := by
  obtain ⟨p, hp, hint⟩ := compile_of_any (t := answering (.numeral "5") ∅)
    (p := fun p => p.contains (.loadConstant (.ofInt 5)) && !p.contains (.loadConstant (.ofText "5")))
    (by decide)
  obtain ⟨q, hq, htext⟩ := compile_of_any (t := answering (.text "5") ∅)
    (p := fun q => q.contains (.loadConstant (.ofText "5"))) (by decide)
  simp only [Bool.and_eq_true, Bool.not_eq_true', List.contains_eq_mem, decide_eq_true_eq,
    decide_eq_false_iff_not] at hint htext
  refine ⟨rfl, rfl, p, q, hp, hq, hint.1, htext, ?_⟩
  rintro rfl
  exact hint.2 htext

end Tree

end Tenure
