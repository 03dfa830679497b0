import Tenure.Proofs.Text.Characters
import Tenure.Text.Quoted

/-!
# Quoted literals are longer than what they stand for

A literal of characters in double quotes stands for a shorter text, `size_unquote?_lt`: the quotes are left out and no
character of it stands for more octets than it has itself. That is so because a literal of characters has no stray octets,
which would be read as a longer character.
-/

set_option autoImplicit false

namespace Tenure.Text

/-! ## Sequences of characters -/

/-- Octets that are characters, none of them stray. -/
def AreCharacters (octets : List UInt8) : Prop := ∀ p ∈ piecesFrom 0 octets, ∃ code, p = .scalar code

theorem areCharacters_of_isUtf8 {t : Text} (h : t.isUtf8 = true) : AreCharacters t.octets := by
  intro p hp
  have hscalar := List.all_eq_true.mp h p hp
  cases p with
  | scalar code => exact ⟨code, rfl⟩
  | stray b => cases hscalar

theorem piecesFrom_drop (skip : Nat) (octets : List UInt8) : piecesFrom skip octets = piecesFrom 0 (octets.drop skip) := by
  induction octets generalizing skip with
  | nil => cases skip <;> rfl
  | cons b rest ih =>
    cases skip with
    | zero => rfl
    | succ skip => exact ih skip

section AreCharacters

variable {b : UInt8} {rest : List UInt8}

/-- What follows the first character of a sequence of characters is one too. -/
theorem AreCharacters.tail (h : AreCharacters (b :: rest)) :
    ∃ code more, firstPiece b rest = (.scalar code, more) ∧ AreCharacters (rest.drop more) := by
  rcases hfirst : firstPiece b rest with ⟨p, more⟩
  have hpieces : piecesFrom 0 (b :: rest) = p :: piecesFrom more rest := by rw [piecesFrom, hfirst]
  obtain ⟨code, rfl⟩ := h p (by simp [hpieces])
  refine ⟨code, more, rfl, fun p hp => h p ?_⟩
  rw [hpieces, piecesFrom_drop more]
  exact List.mem_cons_of_mem _ hp

theorem AreCharacters.of_cons (h : AreCharacters (b :: rest)) (hb : b < 0x80) : AreCharacters rest := by
  obtain ⟨code, more, hfirst, hrest⟩ := h.tail
  rw [firstPiece_one rest rfl (UInt8.lt_iff_toNat_lt.mp hb)] at hfirst
  obtain rfl := (Prod.mk.inj hfirst).2
  exact hrest

theorem AreCharacters.drop {octets : List UInt8} (h : AreCharacters octets) {count : Nat}
    (hascii : ∀ b ∈ octets.take count, b < 0x80) : AreCharacters (octets.drop count) := by
  induction count generalizing octets with
  | zero => exact h
  | succ count ih =>
    cases octets with
    | nil => exact h
    | cons b rest =>
      refine ih (h.of_cons (hascii b (by simp))) fun c hc => hascii c ?_
      rw [List.take_succ_cons]
      exact List.mem_cons_of_mem b hc

end AreCharacters

/-! ## Characters of a literal -/

/-- What is taken off the front of characters leaves characters, and is not shorter than what it stands for. -/
def Shortens (octets taken rest : List UInt8) : Prop :=
  taken.length + rest.length ≤ octets.length ∧ AreCharacters rest

theorem lt_of_digitValue? {b : UInt8} {d : Nat} (h : digitValue? b = some d) : b < 0x80 := by
  rw [digitValue?] at h
  rw [UInt8.lt_iff_toNat_lt]
  change b.toNat < 128
  split at h
  next hdigit =>
    simp only [isDigit, Bool.and_eq_true, decide_eq_true_eq, UInt8.le_iff_toNat_le, UInt8.reduceToNat] at hdigit
    omega
  next =>
    simp only [Option.ite_none_right_eq_some] at h
    obtain ⟨⟨-, hletter⟩, -⟩ := h
    rw [lowerOctet] at hletter
    split at hletter
    next hcapital =>
      simp only [UInt8.le_iff_toNat_le, UInt8.reduceToNat] at hcapital
      omega
    next =>
      simp only [UInt8.le_iff_toNat_le, UInt8.reduceToNat] at hletter
      omega

/-- Hexadecimal digits are ASCII. -/
theorem ascii_of_hexValue? {digits : List UInt8} {n : Nat} (h : hexValue? digits = some n) : ∀ b ∈ digits, b < 0x80 := by
  rw [hexValue?] at h
  have hstep : ∀ (digits : List UInt8) (value : Option Nat), digits.foldl (fun value b => do
      let v ← value
      let d ← digitValue? b
      if d < 16 then some (16 * v + d) else none) value = some n → value.isSome ∧ ∀ b ∈ digits, b < 0x80 := by
    intro digits
    induction digits with
    | nil =>
      rintro value rfl
      exact ⟨rfl, by simp⟩
    | cons b rest ih =>
      intro value h
      obtain ⟨hsome, hrest⟩ := ih _ h
      cases value with
      | none => cases hsome
      | some v =>
        refine ⟨rfl, fun c hc => ?_⟩
        rcases List.mem_cons.mp hc with rfl | hc
        · cases hd : digitValue? c with
          | none => simp [hd] at hsome
          | some d => exact lt_of_digitValue? hd
        · exact hrest c hc
  exact (hstep digits (some 0) h).2

section Escapes

variable {octets taken rest : List UInt8} {mark : UInt8}

theorem hexEscape?_shortens {count value : Nat} (h : hexEscape? count octets = some (value, rest))
    (hoctets : AreCharacters octets) : count + rest.length = octets.length ∧ AreCharacters rest := by
  rw [hexEscape?] at h
  split at h
  · cases h
  next hlength =>
    cases hvalue : hexValue? (octets.take count) with
    | none => simp [hvalue] at h
    | some v =>
      rw [hvalue] at h
      cases h
      refine ⟨?_, hoctets.drop (ascii_of_hexValue? hvalue)⟩
      rw [List.length_drop]
      omega

/-- The octets of a character that an escape gives by its code. -/
theorem length_encodeScalar_le (code : Nat) : (encodeScalar code).length ≤ 4 := by
  rw [length_encodeScalar]
  split_ifs <;> decide

/-- An escape that gives a code in digits, whatever is done with the code. -/
theorem bind_hexEscape?_shortens {count : Nat} {next : Nat × List UInt8 → Option (List UInt8 × List UInt8)}
    (h : (hexEscape? count octets).bind next = some (taken, rest)) (hoctets : AreCharacters octets)
    (hnext : ∀ value left, next (value, left) = some (taken, rest) → taken.length ≤ count ∧ rest = left) :
    Shortens octets taken rest := by
  obtain ⟨⟨value, left⟩, hhex, hgiven⟩ := Option.bind_eq_some_iff.mp h
  obtain ⟨hlength, hleft⟩ := hexEscape?_shortens hhex hoctets
  obtain ⟨htaken, rfl⟩ := hnext value left hgiven
  exact ⟨by omega, hleft⟩

/-- An escape in octal digits. -/
theorem octal_shortens {c d e : UInt8} (hc : c < 0x80) (hd : octet '0' ≤ d ∧ d ≤ octet '7' ∧ octet '0' ≤ e ∧ e ≤ octet '7')
    (hoctets : AreCharacters (c :: d :: e :: rest)) (b : UInt8) : Shortens (c :: d :: e :: rest) [b] rest := by
  have hascii : ∀ a : UInt8, a ≤ octet '7' → a < 0x80 := by
    intro a ha
    rw [UInt8.le_iff_toNat_le] at ha
    rw [UInt8.lt_iff_toNat_lt]
    exact Nat.lt_of_le_of_lt ha (by decide)
  exact ⟨by simp; omega, ((hoctets.of_cons hc).of_cons (hascii d hd.2.1)).of_cons (hascii e hd.2.2.2)⟩

theorem Shortens.cons {c : UInt8} (h : Shortens octets taken rest) : Shortens (c :: octets) taken rest :=
  ⟨Nat.le_trans h.1 (Nat.le_succ _), h.2⟩

theorem shortens_ite {p : Prop} [Decidable p] {given other : Option (List UInt8 × List UInt8)}
    (h : (if p then given else other) = some (taken, rest))
    (hgiven : p → given = some (taken, rest) → Shortens octets taken rest)
    (hother : other = some (taken, rest) → Shortens octets taken rest) : Shortens octets taken rest := by
  split at h
  next hp => exact hgiven hp h
  next => exact hother h

theorem escape?_shortens (h : escape? mark octets = some (taken, rest)) (hoctets : AreCharacters octets) :
    Shortens octets taken rest := by
  cases octets with
  | nil => cases h
  | cons c more =>
    have hone : ∀ {b : UInt8}, some ([b], more) = some (taken, rest) → c < 0x80 → Shortens (c :: more) taken rest := by
      intro b heq hc
      cases heq
      exact ⟨by simp [Nat.add_comm], hoctets.of_cons hc⟩
    have hcode : ∀ {value : Nat} {left : List UInt8} {count : Nat}, 4 ≤ count →
        (if isScalar value then some (encodeScalar value, left) else none) = some (taken, rest) →
          taken.length ≤ count ∧ rest = left := by
      intro value left count hcount heq
      rw [Option.ite_none_right_eq_some] at heq
      obtain ⟨-, heq⟩ := heq
      cases heq
      exact ⟨Nat.le_trans (length_encodeScalar_le value) hcount, rfl⟩
    unfold escape? at h
    refine shortens_ite h (fun hc h => hone h (hc ▸ by decide)) fun h => ?_
    refine shortens_ite h (fun hc h => hone h (hc ▸ by decide)) fun h => ?_
    refine shortens_ite h (fun hc h => hone h (hc ▸ by decide)) fun h => ?_
    refine shortens_ite h (fun hc h => hone h (hc ▸ by decide)) fun h => ?_
    refine shortens_ite h (fun hc h => hone h (hc ▸ by decide)) fun h => ?_
    refine shortens_ite h (fun hc h => hone h (hc ▸ by decide)) fun h => ?_
    refine shortens_ite h (fun hc h => hone h (hc ▸ by decide)) fun h => ?_
    refine shortens_ite h (fun hc h => ?_) fun h => ?_
    · refine (bind_hexEscape?_shortens h (hoctets.of_cons (hc ▸ by decide)) fun value left heq => ?_).cons
      cases heq
      exact ⟨by simp, rfl⟩
    refine shortens_ite h (fun hc h => ?_) fun h => ?_
    · exact (bind_hexEscape?_shortens h (hoctets.of_cons (hc ▸ by decide)) fun _ _ heq => hcode (Nat.le_refl 4) heq).cons
    refine shortens_ite h (fun hc h => ?_) fun h => ?_
    · exact (bind_hexEscape?_shortens h (hoctets.of_cons (hc ▸ by decide)) fun _ _ heq => hcode (by decide) heq).cons
    refine shortens_ite h (fun hc h => ?_) fun h => ?_
    · have hascii : c < 0x80 := UInt8.lt_of_le_of_lt hc.2 (by decide)
      split at h
      next d e left =>
        rw [Option.ite_none_right_eq_some] at h
        obtain ⟨hdigits, h⟩ := h
        simp only [Option.ite_none_right_eq_some] at h
        obtain ⟨-, heq⟩ := h
        cases heq
        exact octal_shortens hascii hdigits hoctets _
      next => cases h
    refine shortens_ite h (fun hc h => hone h (hc ▸ by decide)) fun h => ?_
    rw [Option.ite_none_right_eq_some] at h
    obtain ⟨⟨hmark, hquote⟩, h⟩ := h
    refine hone h ?_
    rw [hmark]
    rcases hquote with hquote | hquote
    all_goals
      rw [hquote]
      decide

/-- A character of a literal. -/
theorem literalChar?_shortens (h : literalChar? mark octets = some (taken, rest)) (hoctets : AreCharacters octets) :
    Shortens octets taken rest := by
  cases octets with
  | nil => cases h
  | cons c more =>
    rw [literalChar?] at h
    split at h
    · cases h
    split at h
    next hc => exact (escape?_shortens h (hoctets.of_cons (hc ▸ by decide))).cons
    split at h
    next hc =>
      cases h
      exact ⟨by simp [Nat.add_comm], hoctets.of_cons hc⟩
    next =>
      obtain ⟨code, count, hfirst, hrest⟩ := hoctets.tail
      obtain ⟨-, hcount, hlength⟩ := of_firstPiece hfirst
      rw [hfirst] at h
      cases h
      refine ⟨?_, hrest⟩
      rw [hlength, List.length_drop, List.length_cons]
      omega

end Escapes

/-! ## Literals -/

/-- The body of a literal is longer than what it stands for, by its closing quote at least. -/
theorem length_literalBody?_lt {mark : UInt8} (fuel : Nat) {octets body : List UInt8}
    (h : literalBody? mark fuel octets = some body) (hoctets : AreCharacters octets) : body.length < octets.length := by
  induction fuel generalizing octets body with
  | zero => cases h
  | succ fuel ih =>
    unfold literalBody? at h
    split at h
    next c =>
      rw [Option.ite_none_right_eq_some] at h
      obtain ⟨-, heq⟩ := h
      cases heq
      exact Nat.zero_lt_one
    next =>
      obtain ⟨⟨taken, rest⟩, hchar, h⟩ := Option.bind_eq_some_iff.mp h
      obtain ⟨tail, hbody, heq⟩ := Option.bind_eq_some_iff.mp h
      obtain ⟨hlength, hrest⟩ := literalChar?_shortens hchar hoctets
      have hshorter := ih hbody hrest
      cases heq
      rw [List.length_append]
      omega

/-- A literal of characters in double quotes is longer than the text that it stands for. -/
theorem size_unquote?_lt {t u : Text} (hquote : t.startsWith "\"" = true) (hutf8 : t.isUtf8 = true)
    (h : t.unquote? = some u) : u.size < t.size := by
  have hcharacters := areCharacters_of_isUtf8 hutf8
  obtain ⟨octets⟩ := t
  obtain ⟨rest, rfl⟩ : ∃ rest, octets = octet '"' :: rest := by
    obtain ⟨rest, hrest⟩ := List.isPrefixOf_iff_prefix.mp hquote
    exact ⟨rest, hrest.symm⟩
  rw [unquote?] at h
  simp only [if_true, Option.map_eq_some_iff] at h
  obtain ⟨body, hbody, rfl⟩ := h
  have hshorter := length_literalBody?_lt _ hbody (hcharacters.of_cons (by decide))
  exact Nat.lt_trans hshorter (Nat.lt_succ_self _)

end Tenure.Text
