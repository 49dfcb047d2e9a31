import Covenant.Completion.Remote
import Covenant.Source.Blank

/-!
Where completions come from: the address of a backend, the key that it asks for, and how long to
wait for it.
-/

namespace Covenant

structure Endpoint where
  host : String
  portNumber : Nat
  path : String
deriving DecidableEq, Repr

def decimalBelow? (bound : Nat) (chars : List Char) : Option Nat :=
  let digits := match chars with
    | '+' :: rest => rest
    | _ => chars
  if digits.isEmpty || !digits.all Char.isDigit then none
  else
    let value := Score.numberOf digits
    if value < bound then some value else none

namespace Endpoint

def splitPort? (chars : List Char) : Option (List Char × List Char) :=
  let digits := (chars.reverse.takeWhile fun char => char != ':').reverse
  if digits.length == chars.length then none
    else some (chars.take (chars.length - digits.length - 1), digits)

def parse (text : String) : Except TransportError Endpoint :=
  let scheme := "http://".toList
  if !scheme.isPrefixOf text.toList then .error (.invalidEndpoint text)
  else
    let rest := text.toList.drop scheme.length
    let authority := rest.takeWhile fun char => char != '/'
    let path := if authority.length == rest.length then ['/'] else rest.drop authority.length
    let (host, number) := match splitPort? authority with
      | some (host, digits) => (host, decimalBelow? 65536 digits)
      | none => (authority, some 80)
    match number with
    | some portNumber =>
      if host.isEmpty then .error (.invalidEndpoint text)
      else .ok { host := String.ofList host, portNumber, path := String.ofList path }
    | none => .error (.invalidEndpoint text)

end Endpoint

structure CompletionSettings where
  endpoint : Option String
  apiKey : Option String
  timeout : Nat
deriving DecidableEq, Repr

namespace CompletionSettings

def standard : CompletionSettings := { endpoint := none, apiKey := none, timeout := 2000 }

def endpointVariable : String := "AURION_AI_ENDPOINT"

def keyVariable : String := "AURION_AI_KEY"

def timeoutVariable : String := "AURION_AI_TIMEOUT_MS"

def trim (chars : List Char) : List Char :=
  ((chars.dropWhile isBlank).reverse.dropWhile isBlank).reverse

def ofVariables (lookup : String → Option String) : CompletionSettings :=
  let get := fun name => (lookup name).filter fun value => !value.toList.all isBlank
  { endpoint := get endpointVariable
    apiKey := get keyVariable
    timeout := ((get timeoutVariable).bind fun value => decimalBelow? (Nat.pow 2 64)
      (trim value.toList)).getD standard.timeout }

open Json in
def ofJson? (value : Json) : Option CompletionSettings := do
  match ← fieldValues? ["endpoint", "api_key", "timeout_ms"] value with
  | [endpoint, apiKey, timeout] =>
    return {
      endpoint := ← orDefault optionalText? standard.endpoint endpoint
      apiKey := ← orDefault optionalText? standard.apiKey apiKey
      timeout := ← orDefault word? standard.timeout timeout }
  | _ => none

end CompletionSettings

end Covenant
