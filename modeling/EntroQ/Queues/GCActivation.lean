import EntroQ.Client.Types
import EntroQ.Queues.Path

/-! # When a path is due for collection

A path asks for collection in its `gc` parameters; the last one counts. Its value is empty, a Unix
time in seconds or a timestamp; the parser of timestamps is a parameter. -/

namespace EntroQ.Queues
open Foundation Utf8

structure MalformedGC where
  format : String
  value : GoString
  deriving DecidableEq

def isDigit (b : UInt8) : Bool := !(b < octet '0' || octet '9' < b)

def isAllDigits (s : GoString) : Bool := s.all isDigit && s ≠ []

def digitsValue (s : GoString) : ℕ := s.foldl (fun n b => 10 * n + (b.toNat - 48)) 0

/-- The digits as a signed 64-bit number, if it is in range. -/
def parseInt (s : GoString) : Option Int64 :=
  if digitsValue s < 2 ^ 63 then some (Int64.ofNat (digitsValue s)) else none

/-- The seconds since the epoch are counted on from the zero time without a check for overflow. -/
def unix (secs : Int64) : Time := (secs + 62135596800).toInt * second

variable (rfc3339Nano : GoString → Option Time)

def parseGCActivation (value : GoString) : Except MalformedGC Time :=
  if value = [] then .ok 0
  else if isAllDigits value then
    match parseInt value with
    | none => .error ⟨"gc activation unix seconds %q: %w", value⟩
    | some secs => .ok (unix secs)
  else
    match rfc3339Nano value with
    | none => .error ⟨"gc activation timestamp %q: %w", value⟩
    | some t => .ok t

/-- The time of the last `gc` parameter, or nothing without one. -/
def gcActivation (path : GoString) : Except MalformedGC (Option Time) :=
  match (((pathParams path).lookup (text "gc")).getD []).getLast? with
  | none => .ok none
  | some value => (parseGCActivation rfc3339Nano value).map some

/-- The path asks for collection, from a time on that is not after `now`. -/
def due (now : Time) (path : GoString) : Bool :=
  match gcActivation rfc3339Nano path with
  | .ok (some activateAt) => !decide (now < activateAt)
  | _ => false

end EntroQ.Queues
