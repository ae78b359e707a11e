import EntroQ.Client.DependencyError

/-! # Errors a worker tells apart

An error is what `errors.Is` and `errors.As` find in its chain, and its text. Wrapping an error
keeps what is found in it. -/

namespace EntroQ.Worker

structure RetryError where
  msg : String
  after : Option Duration := none
  moveTo : String := ""
  stop : Bool := false
  deriving DecidableEq

structure MoveError where
  msg : String
  to_ : String := ""
  stop : Bool := false
  deriving DecidableEq

structure FatalError where
  msg : String
  deriving DecidableEq

structure Err where
  msg : String := ""
  asRetry : Option RetryError := none
  asMove : Option MoveError := none
  asFatal : Option FatalError := none
  asDependency : Option DependencyError := none
  isCanceled : Bool := false
  isTimeout : Bool := false
  isUnsupported : Bool := false
  isShutdown : Bool := false
  deriving DecidableEq

def RetryError.err (e : RetryError) : Err := { msg := e.msg, asRetry := some e }
def MoveError.err (e : MoveError) : Err := { msg := e.msg, asMove := some e }
def FatalError.err (e : FatalError) : Err := { msg := e.msg, asFatal := some e }

/-- The error `fmt.Errorf` makes of another with `%w`. -/
def Err.wrap (what : String) (e : Err) : Err := { e with msg := what ++ ": " ++ e.msg }

def isSentinelError (e : Err) : Bool := e.asRetry.isSome || e.asMove.isSome || e.asFatal.isSome

def errShutdown : Err := { msg := "worker: shut down", isShutdown := true }
def canceled : Err := { msg := "context canceled", isCanceled := true }
def deadlineExceeded : Err := { msg := "context deadline exceeded", isTimeout := true }

/-- How a claimed task is counted. -/
inductive Outcome
  | done | released | retried | moved | lost | failed
  deriving DecidableEq

def sentinelOutcome (e : Err) : Outcome :=
  if e.asMove.isSome then .moved else if e.asRetry.isSome then .retried else .failed

end EntroQ.Worker
