import Tenure.Text.Quoted
import Tenure.Toml.Number
import Tenure.Toml.Time
import Tenure.Toml.Value

/-!
# Reading configuration texts

`Toml.statements?` reads the statements of a text. A text is UTF-8, possibly after a byte order mark, and of the
control characters holds only tabs and ends of lines. Keys and their values stand on one line; arrays and inline
tables may spread over lines, hold comments and end with a comma.
-/

set_option autoImplicit false

namespace Tenure.Toml

open Text (octet isDigit encodeScalar isScalar hexEscape?)

/-- Whether an octet is blank within a line. -/
def isBlank (b : UInt8) : Bool := b = 32 || b = 9

/-- Whether an octet ends a line or belongs to its end. -/
def isLineEnd (b : UInt8) : Bool := b = 10 || b = 13

/-- The octets from the first that is not blank. -/
def skipBlanks (octets : List UInt8) : List UInt8 := octets.dropWhile isBlank

/-- The octets after blanks, ends of lines and comments, possibly from within a comment. -/
def skipGapsFrom (comment : Bool) : List UInt8 → List UInt8
  | [] => []
  | c :: rest =>
    if isLineEnd c then skipGapsFrom false rest
    else if comment then skipGapsFrom true rest
    else if isBlank c then skipGapsFrom false rest
    else if c = octet '#' then skipGapsFrom true rest
    else c :: rest

/-- The octets after blanks, ends of lines and comments. -/
def skipGaps (octets : List UInt8) : List UInt8 := skipGapsFrom false octets

/-- What follows a statement, of whose line only blanks and a comment may be left. -/
def endLine? (octets : List UInt8) : Option (List UInt8) :=
  match skipBlanks octets with
  | [] => some []
  | c :: rest => if isLineEnd c ∨ c = octet '#' then some (skipGaps (c :: rest)) else none

/-- An octet that has to come next, and the rest. -/
def takeMark? (mark : Char) : List UInt8 → Option (List UInt8)
  | c :: rest => if c = octet mark then some rest else none
  | [] => none

/-! ## Strings -/

/-- The octets that the escape after a backslash stands for, and the rest. -/
def escape? : List UInt8 → Option (List UInt8 × List UInt8)
  | [] => none
  | c :: rest =>
    let code (digits : Nat) : Option (List UInt8 × List UInt8) := do
      let (value, rest) ← hexEscape? digits rest
      if isScalar value then some (encodeScalar value, rest) else none
    if c = octet 'b' then some ([8], rest)
    else if c = octet 't' then some ([9], rest)
    else if c = octet 'n' then some ([10], rest)
    else if c = octet 'f' then some ([12], rest)
    else if c = octet 'r' then some ([13], rest)
    else if c = octet 'e' then some ([27], rest)
    else if c = octet '"' ∨ c = octet '\\' then some ([c], rest)
    else if c = octet 'x' then code 2
    else if c = octet 'u' then code 4
    else if c = octet 'U' then code 8
    else none

/-- The rest of a string on one line up to its closing quote, after octets taken before in reverse, and what follows
it. -/
def takeBasic? : Nat → List UInt8 → List UInt8 → Option (Text × List UInt8)
  | 0, _, _ => none
  | fuel + 1, acc, octets =>
    match octets with
    | [] => none
    | c :: rest =>
      if c = octet '"' then some (⟨acc.reverse⟩, rest)
      else if isLineEnd c then none
      else if c = octet '\\' then
        match escape? rest with
        | some (octets, rest) => takeBasic? fuel (octets.reverse ++ acc) rest
        | none => none
      else takeBasic? fuel (c :: acc) rest

/-- The rest of a literal string on one line up to its closing quote, and what follows it. -/
def takeLiteral? (octets : List UInt8) : Option (Text × List UInt8) :=
  let content := octets.takeWhile fun c => c ≠ octet '\'' && !isLineEnd c
  (takeMark? '\'' (octets.drop content.length)).map fun rest => (⟨content⟩, rest)

/-- The octets without an end of line in front of them. -/
def dropLineEnd : List UInt8 → List UInt8
  | 13 :: 10 :: rest => rest
  | 10 :: rest => rest
  | octets => octets

/-- The octets after blanks and ends of lines, if there is an end of line among them: what a backslash at the end of a
line skips. -/
def continued? (octets : List UInt8) : Option (List UInt8) :=
  let gap := octets.takeWhile fun c => isBlank c || isLineEnd c
  if gap.contains 10 then some (octets.drop gap.length) else none

/-- What a run of quotes means inside a string over several lines. -/
inductive Quotes where
  /-- Fewer than three are part of the string. -/
  | inside (run : List UInt8)
  /-- Three to five close it, and those in excess of three are its end. -/
  | closing (excess : List UInt8)
  | tooMany

/-- What a run of quotes means. -/
def Quotes.of (run : List UInt8) : Quotes :=
  if run.length < 3 then .inside run
  else if run.length ≤ 5 then .closing (run.drop 3)
  else .tooMany

/-- The rest of a string over several lines up to its closing quotes, after octets taken before in reverse, and what
follows it. In a literal one a backslash is nothing special. -/
def takeLines? (quote : UInt8) (literal : Bool) : Nat → List UInt8 → List UInt8 → Option (Text × List UInt8)
  | 0, _, _ => none
  | fuel + 1, acc, octets =>
    match octets with
    | [] => none
    | c :: rest =>
      if c = quote then
        let run := octets.takeWhile (· = quote)
        let rest := octets.drop run.length
        match Quotes.of run with
        | .inside run => takeLines? quote literal fuel (run ++ acc) rest
        | .closing excess => some (⟨(excess ++ acc).reverse⟩, rest)
        | .tooMany => none
      else if c = octet '\\' ∧ literal = false then
        match continued? rest with
        | some rest => takeLines? quote literal fuel acc rest
        | none =>
          match escape? rest with
          | some (octets, rest) => takeLines? quote literal fuel (octets.reverse ++ acc) rest
          | none => none
      else takeLines? quote literal fuel (c :: acc) rest

/-- A string after its first quote: on one line, or over several lines if two more quotes follow. -/
def takeString? (quote : UInt8) (literal : Bool) (octets : List UInt8) : Option (Text × List UInt8) :=
  match Text.dropStart? ⟨octets⟩ ⟨[quote, quote]⟩ with
  | some rest => takeLines? quote literal (octets.length + 1) [] (dropLineEnd rest.octets)
  | none => if literal then takeLiteral? octets else takeBasic? (octets.length + 1) [] octets

/-! ## Keys -/

/-- Whether an octet may stand in a bare name. -/
def isBare (b : UInt8) : Bool :=
  isDigit b || (97 ≤ Text.lowerOctet b && Text.lowerOctet b ≤ 122) || b = octet '_' || b = octet '-'

/-- One name of a key, and the rest. -/
def takeName? (octets : List UInt8) : Option (Text × List UInt8) :=
  match skipBlanks octets with
  | [] => none
  | c :: rest =>
    if c = octet '"' then takeBasic? (rest.length + 1) [] rest
    else if c = octet '\'' then takeLiteral? rest
    else
      match (c :: rest).takeWhile isBare with
      | [] => none
      | name => some (⟨name⟩, (c :: rest).drop name.length)

/-- A dotted key, after names taken before in reverse, and the rest after blanks. -/
def takeKey? : Nat → Key → List UInt8 → Option (Key × List UInt8)
  | 0, _, _ => none
  | fuel + 1, acc, octets =>
    match takeName? octets with
    | none => none
    | some (name, rest) =>
      let rest := skipBlanks rest
      match takeMark? '.' rest with
      | some rest => takeKey? fuel (name :: acc) rest
      | none => some ((name :: acc).reverse, rest)

/-- A dotted key, and the rest after blanks. -/
def key? (octets : List UInt8) : Option (Key × List UInt8) := takeKey? (octets.length + 1) [] octets

/-! ## Values -/

/-- Whether an octet may stand in a number or a time. -/
def isTokenPart (b : UInt8) : Bool := isBare b || b = octet '+' || b = octet '.' || b = octet ':'

/-- A number or a time as it is written, and the rest. A date and a time of day may have a space between them. -/
def takeToken (octets : List UInt8) : List UInt8 × List UInt8 :=
  let token := octets.takeWhile isTokenPart
  let rest := octets.drop token.length
  match rest with
  | space :: digit :: _ =>
    if (Calendar.Date.take? token).map Prod.snd = some [] ∧ space = 32 ∧ isDigit digit then
      let clock := (rest.drop 1).takeWhile isTokenPart
      (token ++ space :: clock, rest.drop (clock.length + 1))
    else (token, rest)
  | _ => (token, rest)

/-- The value that a word, a number or a time writes. -/
def tokenValue? (token : List UInt8) : Option Value :=
  if token = Text.octets "true" then some (.bool true)
  else if token = Text.octets "false" then some (.bool false)
  else if isTime token then some (.time ⟨token⟩)
  else
    match integer? token with
    | some n => some (.integer n)
    | none => (float? token).map .float

mutual

/-- A value, and the rest. -/
def takeValue? : Nat → List UInt8 → Option (Value × List UInt8)
  | 0, _ => none
  | fuel + 1, octets =>
    match skipBlanks octets with
    | [] => none
    | c :: rest =>
      if c = octet '"' then (takeString? c false rest).map fun (t, rest) => (.string t, rest)
      else if c = octet '\'' then (takeString? c true rest).map fun (t, rest) => (.string t, rest)
      else if c = octet '[' then (takeItems? fuel [] rest).map fun (items, rest) => (.array items, rest)
      else if c = octet '\x7b' then (takeEntries? fuel [] rest).map fun (entries, rest) => (.inline entries, rest)
      else
        let (token, rest) := takeToken (c :: rest)
        (tokenValue? token).map fun v => (v, rest)

/-- The items of an array up to its end, after those taken before in reverse, and the rest. -/
def takeItems? : Nat → List Value → List UInt8 → Option (List Value × List UInt8)
  | 0, _, _ => none
  | fuel + 1, acc, octets =>
    let octets := skipGaps octets
    match takeMark? ']' octets with
    | some rest => some (acc.reverse, rest)
    | none =>
      match takeValue? fuel octets with
      | none => none
      | some (v, rest) =>
        match skipGaps rest with
        | [] => none
        | c :: rest =>
          if c = octet ',' then takeItems? fuel (v :: acc) rest
          else if c = octet ']' then some ((v :: acc).reverse, rest)
          else none

/-- The entries of an inline table up to its end, after those taken before in reverse, and the rest. -/
def takeEntries? : Nat → List (Key × Value) → List UInt8 → Option (List (Key × Value) × List UInt8)
  | 0, _, _ => none
  | fuel + 1, acc, octets =>
    let octets := skipGaps octets
    match takeMark? '\x7d' octets with
    | some rest => some (acc.reverse, rest)
    | none =>
      match key? octets with
      | none => none
      | some (key, rest) =>
        match (takeMark? '=' rest).bind (takeValue? fuel) with
        | none => none
        | some (v, rest) =>
          match skipGaps rest with
          | [] => none
          | c :: rest =>
            if c = octet ',' then takeEntries? fuel ((key, v) :: acc) rest
            else if c = octet '\x7d' then some (((key, v) :: acc).reverse, rest)
            else none

end

/-! ## Statements -/

/-- The head of a table or of an element after its first bracket, and the rest. -/
def takeHead? (octets : List UInt8) : Option (Statement × List UInt8) :=
  match takeMark? '[' octets with
  | some rest => do
    let (key, rest) ← key? rest
    some (.element key, ← takeMark? ']' (← takeMark? ']' rest))
  | none => do
    let (key, rest) ← key? octets
    some (.table key, ← takeMark? ']' rest)

/-- A statement, and the rest of its line. -/
def takeStatement? (octets : List UInt8) : Option (Statement × List UInt8) :=
  match takeMark? '[' octets with
  | some rest => takeHead? rest
  | none => do
    let (key, rest) ← key? octets
    let (v, rest) ← takeValue? (2 * octets.length + 2) (← takeMark? '=' rest)
    some (.entry key v, rest)

/-- The statements of octets that do not begin with a gap, after those taken before in reverse. -/
def takeStatements? : Nat → List Statement → List UInt8 → Option (List Statement)
  | 0, _, _ => none
  | fuel + 1, acc, octets =>
    match octets with
    | [] => some acc.reverse
    | _ =>
      match takeStatement? octets with
      | none => none
      | some (statement, rest) =>
        match endLine? rest with
        | none => none
        | some rest => takeStatements? fuel (statement :: acc) rest

/-- The octets without a byte order mark in front of them. -/
def dropByteOrderMark : List UInt8 → List UInt8
  | 0xff :: 0xfe :: rest => rest
  | 0xfe :: 0xff :: rest => rest
  | 0xef :: 0xbb :: 0xbf :: rest => rest
  | octets => octets

/-- Whether octets hold no control character but tabs and ends of lines. -/
def isPlain : List UInt8 → Bool
  | [] => true
  | c :: rest =>
    (if c = 13 then rest.head? = some 10 else c = 9 || c = 10 || (32 ≤ c && c ≠ 127)) && isPlain rest

/-- The statements of a text. -/
def statements? (t : Text) : Option (List Statement) :=
  let octets := dropByteOrderMark t.octets
  if isPlain octets ∧ Text.isUtf8 ⟨octets⟩ then takeStatements? (octets.length + 1) [] (skipGaps octets) else none

end Tenure.Toml
