import Tenure.Text.Basic

/-!
# Addresses to listen on

An address is a host and a number with a colon between them; a host that holds colons stands in brackets.
-/

set_option autoImplicit false

namespace Tenure.Service

open Text (octet)

/-- What is wrong with an address. -/
inductive AddressFault where
  | missingNumber
  | tooManyColons
  | unclosedBracket
  | strayOpen
  | strayClose
deriving DecidableEq, Repr

/-- The text of what is wrong with an address. -/
def AddressFault.message : AddressFault → Text
  | .missingNumber => "missing port in address"
  | .tooManyColons => "too many colons in address"
  | .unclosedBracket => "missing ']' in address"
  | .strayOpen => "unexpected '[' in address"
  | .strayClose => "unexpected ']' in address"

/-- The fault of a bracket in a part of an address that may hold none. -/
def bracketFault? (forOpen forClose : List UInt8) : Option AddressFault :=
  if forOpen.contains (octet '[') then some .strayOpen
  else if forClose.contains (octet ']') then some .strayClose
  else none

/-- What is wrong with an address whose host stands in brackets, of which the first has been taken. -/
def bracketedFault? (rest : List UInt8) : Option AddressFault :=
  let host := rest.takeWhile (· ≠ octet ']')
  match rest.drop host.length with
  | [] => some .unclosedBracket
  | [_] => some .missingNumber
  | _ :: colon :: number =>
    if colon ≠ octet ':' then some .missingNumber
    else if number.contains (octet ':') then some .tooManyColons
    else bracketFault? rest number

/-- What is wrong with an address, if anything. -/
def addressFault? (address : Text) : Option AddressFault :=
  if !address.contains ':' then some .missingNumber
  else
    match address.octets with
    | [] => some .missingNumber
    | c :: rest =>
      if c = octet '[' then bracketedFault? rest
      else if 1 < address.octets.count (octet ':') then some .tooManyColons
      else bracketFault? address.octets address.octets

end Tenure.Service
