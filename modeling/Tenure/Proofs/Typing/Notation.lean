import Mathlib.Tactic.SplitIfs
import Mathlib.Tactic.ByContra
import Tenure.Typing.Ascription

/-!
# The notation of types

The text of a type reads back as the type, unless the type has a shared reference to a string in it, and reading gives
no such type: `Ty.notation_consistent`. Texts of types stand inside one another, so what is shown by mutual induction on
types and lists of types is that a type is read off the front of any octets that begin with its text, as long as the
octets that follow cannot be part of a name: `Ty.takeType_text`, `Ty.takeParameters_texts`.
-/

set_option autoImplicit false

namespace Tenure

namespace Ty

mutual

/-- A type without a shared reference to a string in it. -/
def Collapsed : Ty → Prop
  | .function parameters result => AllCollapsed parameters ∧ result.Collapsed
  | .reference target mutable => (target = .str → mutable = true) ∧ target.Collapsed
  | _ => True

/-- Types without shared references to strings in them. -/
def AllCollapsed : List Ty → Prop
  | [] => True
  | t :: rest => t.Collapsed ∧ AllCollapsed rest

end

end Ty

namespace Ascription

variable {source word name : Text} {octets rest : List UInt8} {b c : UInt8} {t : Ty}

/-! ## Words and names -/

/-- The octets do not go on with a name. -/
def Closed : List UInt8 → Prop
  | [] => True
  | b :: _ => isNameOctet b = false

theorem skipSpaces_of_ne (hb : b ≠ 32) (octets : List UInt8) : skipSpaces (b :: octets) = b :: octets := by
  simp [skipSpaces, hb]

theorem accept?_space (word : Text) (octets : List UInt8) : accept? word (32 :: octets) = accept? word octets := rfl

theorem takeName_space (octets : List UInt8) : takeName (32 :: octets) = takeName octets := rfl

theorem accept?_append (word : Text) (hword : word.octets = b :: octets) (hb : b ≠ 32) (rest : List UInt8) :
    accept? word (word.octets ++ rest) = some rest := by
  have hskip : skipSpaces (word.octets ++ rest) = word.octets ++ rest := by
    rw [hword]
    exact skipSpaces_of_ne hb (octets ++ rest)
  rw [accept?, hskip]
  simp [Text.dropStart?, Text.startsWith, Text.size]

theorem accept?_ne (word : Text) (hword : word.octets = b :: octets) (hb : c ≠ b) (hc : c ≠ 32) (rest : List UInt8) :
    accept? word (c :: rest) = none := by
  have hstart : Text.startsWith ⟨c :: rest⟩ word = false := by
    simp [Text.startsWith, hword, List.isPrefixOf, beq_eq_false_iff_ne.mpr (Ne.symm hb)]
  simp [accept?, skipSpaces_of_ne hc, Text.dropStart?, hstart]

/-- A name is taken off the front of the octets that it begins. -/
theorem takeName_append (hname : name.octets.all isNameOctet = true) (hrest : Closed rest)
    (hfirst : skipSpaces (name.octets ++ rest) = name.octets ++ rest) :
    takeName (name.octets ++ rest) = (name, rest) := by
  have hstop : rest.takeWhile isNameOctet = [] ∧ rest.dropWhile isNameOctet = rest := by
    cases rest with
    | nil => exact ⟨rfl, rfl⟩
    | cons b rest =>
      have hb : isNameOctet b = false := hrest
      simp [hb]
  have htake : (name.octets ++ rest).takeWhile isNameOctet = name.octets := by
    rw [List.takeWhile_append_of_pos (List.all_eq_true.mp hname), hstop.1, List.append_nil]
  have hdrop : (name.octets ++ rest).dropWhile isNameOctet = rest := by
    rw [List.dropWhile_append_of_pos (List.all_eq_true.mp hname), hstop.2]
  simp only [takeName, hfirst, htake, hdrop]

/-! ## Types and their beginnings -/

/-- Spaces in front of a type do not matter. -/
theorem takeType_space (fuel : Nat) (octets : List UInt8) :
    takeType source fuel (32 :: octets) = takeType source fuel octets := by
  cases fuel with
  | zero => rfl
  | succ fuel =>
    rw [takeType, takeType, accept?_space, accept?_space, takeName_space]

theorem octets_function (parameters : List Ty) (result : Ty) :
    (Ty.function parameters result).text.octets = 102 :: 110 :: 40 ::
      ((Text.join ", " (Ty.texts parameters)).octets ++ 41 :: 32 :: 45 :: 62 :: 32 :: result.text.octets) := by
  have hopen : ("fn(" : Text).octets = [102, 110, 40] := rfl
  have hclose : (") -> " : Text).octets = [41, 32, 45, 62, 32] := rfl
  simp [Ty.text, hopen, hclose]

/-- The text of a type begins with the sign of a reference, a parenthesis or a letter. -/
theorem text_cons (t : Ty) : ∃ b octets, t.text.octets = b :: octets ∧ b ≠ 32 ∧ b ≠ 41 ∧ b ≠ 44 := by
  cases t with
  | reference target mutable =>
    cases mutable
    · exact ⟨38, target.text.octets, rfl, by decide, by decide, by decide⟩
    · exact ⟨38, [109, 117, 116, 32] ++ target.text.octets, rfl, by decide, by decide, by decide⟩
  | function parameters result =>
    exact ⟨102, _, octets_function parameters result, by decide, by decide, by decide⟩
  | _ => exact ⟨_, _, rfl, by decide, by decide, by decide⟩

theorem skipSpaces_text (t : Ty) (rest : List UInt8) : skipSpaces (t.text.octets ++ rest) = t.text.octets ++ rest := by
  obtain ⟨b, octets, ht, hb, -, -⟩ := text_cons t
  rw [ht]
  exact skipSpaces_of_ne hb (octets ++ rest)

/-- A primitive type is read off its name. -/
theorem takeType_primitive (name : Text) (hprimitive : primitive? name = some t) (hcons : name.octets = b :: octets)
    (hname : name.octets.all isNameOctet = true) (fuel : Nat) (hrest : Closed rest) :
    takeType source (fuel + 1) (name.octets ++ rest) = .ok (t, rest) := by
  have hb : isNameOctet b = true := List.all_eq_true.mp hname b (by simp [hcons])
  have hspace : b ≠ 32 := by
    rintro rfl
    cases hb
  have hamp : accept? "&" (name.octets ++ rest) = none := by
    rw [hcons]
    refine accept?_ne "&" (b := 38) rfl ?_ hspace _
    rintro rfl
    cases hb
  have hopen : accept? "(" (name.octets ++ rest) = none := by
    rw [hcons]
    refine accept?_ne "(" (b := 40) rfl ?_ hspace _
    rintro rfl
    cases hb
  have htake : takeName (name.octets ++ rest) = (name, rest) := by
    refine takeName_append hname hrest ?_
    rw [hcons]
    exact skipSpaces_of_ne hspace _
  rw [takeType, hamp, hopen, htake]
  simp only [hprimitive]

/-- No type begins with the word that allows change. -/
theorem takeMutable_text (t : Ty) (hrest : Closed rest) :
    takeMutable (t.text.octets ++ rest) = (false, t.text.octets ++ rest) := by
  have hother : ∀ name : Text, name ≠ "mut" → (takeName (t.text.octets ++ rest)).1 = name →
      takeMutable (t.text.octets ++ rest) = (false, t.text.octets ++ rest) := by
    intro name hmut htake
    rw [takeMutable]
    simp only [htake, if_neg hmut]
  have hnamed : ∀ name : Text, name ≠ "mut" → t.text = name → name.octets.all isNameOctet = true →
      takeMutable (t.text.octets ++ rest) = (false, t.text.octets ++ rest) := by
    intro name hmut htext hname
    apply hother name hmut
    have hspaces := skipSpaces_text t rest
    rw [htext] at hspaces ⊢
    rw [takeName_append hname hrest hspaces]
  cases t with
  | unit => exact hother ⟨[]⟩ (by decide) rfl
  | i32 => exact hnamed "i32" (by decide) rfl rfl
  | f32 => exact hnamed "f32" (by decide) rfl rfl
  | bool => exact hnamed "bool" (by decide) rfl rfl
  | char => exact hnamed "char" (by decide) rfl rfl
  | str => exact hnamed "str" (by decide) rfl rfl
  | function parameters result =>
    apply hother "fn" (by decide)
    rw [octets_function]
    rfl
  | reference target mutable => cases mutable <;> exact hother ⟨[]⟩ (by decide) rfl

/-! ## Reading what was written -/

/-- The texts of types as they follow a type in a list. -/
def followers (ts : List Ty) : List UInt8 := ts.flatMap fun t => 44 :: 32 :: t.text.octets

theorem octets_join (t : Ty) (ts : List Ty) :
    (Text.join ", " (Ty.texts (t :: ts))).octets = t.text.octets ++ followers ts := by
  induction ts generalizing t with
  | nil => simp [Ty.texts, Text.join, followers]
  | cons u us ih =>
    have hseparator : (", " : Text).octets = [44, 32] := rfl
    rw [Ty.texts, Ty.texts, Text.join, ← Ty.texts]
    · simp only [Text.octets_append, ih, hseparator, followers, List.flatMap_cons]
      simp
    · simp

theorem closed_followers (ts : List Ty) (rest : List UInt8) : Closed (followers ts ++ 41 :: rest) := by
  cases ts with
  | nil => exact rfl
  | cons t ts => exact rfl

end Ascription

namespace Ty

open Ascription

mutual

/-- A type is read off the front of what its text begins, if there are at least as many steps as octets in the text. -/
theorem takeType_text (source : Text) : (t : Ty) → t.Collapsed → ∀ (fuel : Nat) (rest : List UInt8),
    t.text.octets.length ≤ fuel → Closed rest → takeType source fuel (t.text.octets ++ rest) = .ok (t, rest)
  | .unit, _, fuel + 1, rest, _, _ => rfl
  | .i32, _, fuel + 1, rest, _, hrest => takeType_primitive "i32" rfl rfl rfl fuel hrest
  | .f32, _, fuel + 1, rest, _, hrest => takeType_primitive "f32" rfl rfl rfl fuel hrest
  | .bool, _, fuel + 1, rest, _, hrest => takeType_primitive "bool" rfl rfl rfl fuel hrest
  | .char, _, fuel + 1, rest, _, hrest => takeType_primitive "char" rfl rfl rfl fuel hrest
  | .str, _, fuel + 1, rest, _, hrest => takeType_primitive "str" rfl rfl rfl fuel hrest
  | .reference target false, ht, fuel + 1, rest, hfuel, hrest => by
    have htext : (reference target false).text.octets = 38 :: target.text.octets := rfl
    have hshorter : target.text.octets.length ≤ fuel := by
      rw [htext, List.length_cons] at hfuel
      omega
    have hsign : accept? "&" (38 :: (target.text.octets ++ rest)) = some (target.text.octets ++ rest) :=
      accept?_append "&" rfl (by decide) _
    have hstr : target ≠ .str := fun hstr => Bool.noConfusion (ht.1 hstr)
    rw [htext, List.cons_append, takeType, hsign]
    simp only [takeMutable_text target hrest, takeType_text source target ht.2 fuel rest hshorter hrest]
    simp [referenceTo, hstr, pure, Except.pure, bind, Except.bind]
  | .reference target true, ht, fuel + 1, rest, hfuel, hrest => by
    have htext : (reference target true).text.octets = 38 :: 109 :: 117 :: 116 :: 32 :: target.text.octets := rfl
    have hshorter : target.text.octets.length ≤ fuel := by
      rw [htext] at hfuel
      simp only [List.length_cons] at hfuel
      omega
    have hsign : accept? "&" (38 :: 109 :: 117 :: 116 :: 32 :: (target.text.octets ++ rest)) =
        some (109 :: 117 :: 116 :: 32 :: (target.text.octets ++ rest)) :=
      accept?_append "&" rfl (by decide) _
    have hmutable : takeMutable (109 :: 117 :: 116 :: 32 :: (target.text.octets ++ rest)) =
        (true, 32 :: (target.text.octets ++ rest)) := rfl
    rw [htext]
    simp only [List.cons_append]
    rw [takeType, hsign]
    simp only [hmutable, takeType_space, takeType_text source target ht.2 fuel rest hshorter hrest]
    simp [referenceTo, pure, Except.pure, bind, Except.bind]
  | .function parameters result, ht, fuel + 1, rest, hfuel, hrest => by
    rw [octets_function] at hfuel ⊢
    simp only [List.length_cons, List.length_append] at hfuel
    have hparameters := takeParameters_function source parameters ht.1 fuel
      (32 :: 45 :: 62 :: 32 :: (result.text.octets ++ rest)) (by omega)
    have hresult : takeType source fuel (32 :: (result.text.octets ++ rest)) = .ok (result, rest) :=
      (takeType_space fuel _).trans (takeType_text source result ht.2 fuel rest (by omega) hrest)
    have hname : ∀ octets, takeName (102 :: 110 :: 40 :: octets) = (("fn" : Text), 40 :: octets) := fun _ => rfl
    have hamp : ∀ octets, accept? "&" (102 :: octets) = none := accept?_ne "&" rfl (by decide) (by decide)
    have hopen : ∀ octets, accept? "(" (102 :: octets) = none := accept?_ne "(" rfl (by decide) (by decide)
    have hlist : ∀ octets, accept? "(" (40 :: octets) = some octets := accept?_append "(" rfl (by decide)
    have harrow : ∀ octets, accept? "->" (32 :: 45 :: 62 :: octets) = some octets := fun octets =>
      (accept?_space _ _).trans (accept?_append "->" rfl (by decide) octets)
    have hprimitive : primitive? "fn" = none := by decide
    simp only [List.cons_append, List.append_assoc]
    rw [takeType, hamp, hopen, hname]
    simp only [hprimitive, if_true, hlist, bind, Except.bind, hparameters, harrow, hresult]
    rfl
  | t, _, 0, rest, hfuel, _ => by
    obtain ⟨b, octets, ht, -⟩ := text_cons t
    rw [ht] at hfuel
    cases hfuel

/-- The types that follow one in a list of parameters are read up to the closing parenthesis. -/
theorem takeParameters_texts (source : Text) : (ts : List Ty) → AllCollapsed ts →
    ∀ (fuel : Nat) (acc : List Ty) (rest : List UInt8), (followers ts).length < fuel → acc ≠ [] →
      takeParameters source fuel acc (followers ts ++ 41 :: rest) = .ok (acc.reverse ++ ts, rest)
  | [], _, fuel + 1, acc, rest, _, _ => by
    have hclose : accept? ")" (41 :: rest) = some rest := accept?_append ")" rfl (by decide) rest
    rw [followers, List.flatMap_nil, List.nil_append, takeParameters, hclose, List.append_nil]
  | t :: ts, hts, fuel + 1, acc, rest, hfuel, hacc => by
    have htexts : followers (t :: ts) ++ 41 :: rest = 44 :: 32 :: (t.text.octets ++ (followers ts ++ 41 :: rest)) := by
      simp [followers]
    have hlength : (followers (t :: ts)).length = t.text.octets.length + 2 + (followers ts).length := by
      simp [followers]
      omega
    have hopen : accept? ")" (44 :: 32 :: (t.text.octets ++ (followers ts ++ 41 :: rest))) = none :=
      accept?_ne ")" rfl (by decide) (by decide) _
    have hcomma : accept? "," (44 :: 32 :: (t.text.octets ++ (followers ts ++ 41 :: rest))) =
        some (32 :: (t.text.octets ++ (followers ts ++ 41 :: rest))) :=
      accept?_append "," rfl (by decide) _
    have hacc' : acc.isEmpty = false := by simpa using hacc
    have htype : takeType source fuel (32 :: (t.text.octets ++ (followers ts ++ 41 :: rest))) =
        .ok (t, followers ts ++ 41 :: rest) :=
      (takeType_space fuel _).trans (takeType_text source t hts.1 fuel _ (by omega) (closed_followers ts rest))
    have hmore := takeParameters_texts source ts hts.2 fuel (t :: acc) rest (by omega) (by simp)
    rw [htexts, takeParameters, hopen]
    simp only [hacc', hcomma, bind, Except.bind, Bool.false_eq_true, if_false, htype, hmore]
    simp

/-- The types of the parameters of a function are read up to the closing parenthesis. -/
theorem takeParameters_function (source : Text) : (ts : List Ty) → AllCollapsed ts → ∀ (fuel : Nat) (rest : List UInt8),
    (Text.join ", " (texts ts)).octets.length < fuel →
      takeParameters source fuel [] ((Text.join ", " (texts ts)).octets ++ 41 :: rest) = .ok (ts, rest)
  | [], _, fuel + 1, rest, _ => by
    have hclose : accept? ")" (41 :: rest) = some rest := accept?_append ")" rfl (by decide) rest
    change takeParameters source (fuel + 1) [] (41 :: rest) = .ok ([], rest)
    rw [takeParameters, hclose, List.reverse_nil]
  | t :: ts, hts, fuel + 1, rest, hfuel => by
    obtain ⟨b, octets, htext, hspace, hparenthesis, -⟩ := text_cons t
    rw [octets_join, List.length_append] at hfuel
    have hopen : accept? ")" (t.text.octets ++ (followers ts ++ 41 :: rest)) = none := by
      rw [htext]
      exact accept?_ne ")" rfl hparenthesis hspace _
    have hlength : 0 < t.text.octets.length := by simp [htext]
    have htype := takeType_text source t hts.1 fuel _ (by omega) (closed_followers ts rest)
    have hmore := takeParameters_texts source ts hts.2 fuel [t] rest (by omega) (by simp)
    rw [octets_join, List.append_assoc, takeParameters, hopen]
    simp only [bind, Except.bind, List.isEmpty_nil, if_true, htype, hmore]
    simp

end

/-! ## What reading gives -/

theorem collapsed_referenceTo {target : Ty} (ht : target.Collapsed) (mutable : Bool) :
    (referenceTo target mutable).Collapsed := by
  unfold referenceTo
  split
  · trivial
  next hother =>
    refine ⟨fun hstr => ?_, ht⟩
    by_contra hmutable
    exact hother ⟨hstr, Bool.eq_false_iff.mpr hmutable⟩

theorem collapsed_of_primitive? {name : Text} {t : Ty} (h : primitive? name = some t) : t.Collapsed := by
  unfold primitive? at h
  split_ifs at h <;> cases h <;> trivial

theorem allCollapsed_iff (ts : List Ty) : AllCollapsed ts ↔ ∀ t ∈ ts, t.Collapsed := by
  induction ts with
  | nil => simp [AllCollapsed]
  | cons t ts ih => simp [AllCollapsed, ih]

/-- What reads first and then goes on gives a result only if both steps do. -/
theorem bind_eq_ok {ε α β : Type} {x : Except ε α} {f : α → Except ε β} {b : β} (h : (x >>= f) = .ok b) :
    ∃ a, x = .ok a ∧ f a = .ok b := by
  cases x with
  | error e => cases h
  | ok a => exact ⟨a, rfl, h⟩

/-- Reading gives no type with a shared reference to a string in it. -/
theorem collapsed_of_take {source : Text} (fuel : Nat) :
    (∀ octets t rest, takeType source fuel octets = .ok (t, rest) → t.Collapsed) ∧
      ∀ octets acc ts rest, takeParameters source fuel acc octets = .ok (ts, rest) →
        (∀ t ∈ acc, t.Collapsed) → ∀ t ∈ ts, t.Collapsed := by
  induction fuel with
  | zero =>
    constructor
    · intro octets t rest h
      cases h
    · intro octets acc ts rest h
      cases h
  | succ fuel ih =>
    obtain ⟨ihtype, ihparameters⟩ := ih
    constructor
    · intro octets t rest h
      rw [takeType] at h
      split at h
      next rest' _ =>
        -- a reference, which may be the string type
        obtain ⟨⟨target, after⟩, htarget, h⟩ := bind_eq_ok h
        cases h
        exact collapsed_referenceTo (ihtype _ _ _ htarget) _
      split at h
      next rest' _ =>
        split at h
        · cases h
          trivial
        · cases h
      simp only at h
      split at h
      next primitive hprimitive =>
        cases h
        exact collapsed_of_primitive? hprimitive
      split_ifs at h
      split at h
      · cases h
      next rest' _ =>
        -- a function, with or without a result
        obtain ⟨⟨parameters, after⟩, hparameters, h⟩ := bind_eq_ok h
        have hall := (allCollapsed_iff parameters).mpr (ihparameters _ _ _ _ hparameters (by simp))
        simp only at h
        split at h
        · cases h
          exact ⟨hall, trivial⟩
        · obtain ⟨⟨result, after'⟩, hresult, h⟩ := bind_eq_ok h
          cases h
          exact ⟨hall, ihtype _ _ _ hresult⟩
    · intro octets acc ts rest h hacc
      have hmore : ∀ octets', (takeType source fuel octets' >>= fun (taken : Ty × List UInt8) =>
          takeParameters source fuel (taken.1 :: acc) taken.2) = .ok (ts, rest) → ∀ t ∈ ts, t.Collapsed := by
        intro octets' h
        obtain ⟨⟨t, after⟩, htype, h⟩ := bind_eq_ok h
        refine ihparameters _ _ _ _ h fun u hu => ?_
        rcases List.mem_cons.mp hu with rfl | hu
        · exact ihtype _ _ _ htype
        · exact hacc u hu
      rw [takeParameters] at h
      split at h
      · cases h
        intro t ht
        exact hacc t (List.mem_reverse.mp ht)
      simp only at h
      split at h
      · exact hmore _ h
      · split at h
        · exact hmore _ h
        · cases h

/-- A type without a shared reference to a string in it reads back from its text. -/
theorem read_text {t : Ty} (ht : t.Collapsed) : read t.text = .ok t := by
  have htake : takeType t.text (2 * t.text.size + 2) t.text.octets = .ok (t, []) := by
    have hfuel : t.text.octets.length ≤ 2 * t.text.size + 2 := by
      rw [Text.size]
      omega
    simpa using takeType_text t.text t ht _ [] hfuel trivial
  rw [read, htake]
  rfl

/-- A text gives no type with a shared reference to a string in it. -/
theorem collapsed_of_read {source : Text} {t : Ty} (h : read source = .ok t) : t.Collapsed := by
  obtain ⟨⟨u, rest⟩, htake, h⟩ := bind_eq_ok h
  simp only at h
  split_ifs at h
  cases h
  exact (collapsed_of_take _).1 _ _ _ htake

/-- The notation of types is consistent. A type without a shared reference to a string in it reads back from its text; and a
text that reads as a type reads as such a type, whose own text reads as the same type again. -/
theorem notation_consistent :
    (∀ t : Ty, t.Collapsed → ∃ u, read t.text = .ok u ∧ u.equal t = true) ∧
      ∀ (source : Text) (t : Ty), read source = .ok t → t.Collapsed ∧ read t.text = .ok t := by
  constructor
  · intro t ht
    exact ⟨t, read_text ht, (equal_iff t t).mpr rfl⟩
  · intro source t h
    have ht := collapsed_of_read h
    exact ⟨ht, read_text ht⟩

/-- A function type that is written out, and a text with an omitted result, spare spaces and another name for a string. -/
theorem notation_consistent_functions :
    (∃ u, read (function [reference .i32 false, function [] .unit] (reference .str true)).text = .ok u ∧
        u.equal (function [reference .i32 false, function [] .unit] (reference .str true)) = true) ∧
      read " fn( & &str ,&mut String)" = .ok (function [.str, reference .str true] .unit) ∧
        (function [.str, reference .str true] .unit).Collapsed ∧
          read "fn(str, &mut str) -> ()" = .ok (function [.str, reference .str true] .unit) := by
  obtain ⟨hprints, hreads⟩ := notation_consistent
  have hcollapsed : (function [reference .i32 false, function [] .unit] (reference .str true)).Collapsed := by
    simp [Collapsed, AllCollapsed]
  have hread : read " fn( & &str ,&mut String)" = .ok (function [.str, reference .str true] .unit) := by rfl
  obtain ⟨hstr, hagain⟩ := hreads _ _ hread
  exact ⟨hprints _ hcollapsed, hread, hstr, hagain⟩

end Ty

end Tenure
