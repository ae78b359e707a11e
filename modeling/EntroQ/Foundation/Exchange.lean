import Mathlib

/-! # Conversations in turns

One party asks and the other answers, over a pipe each way. The one that asks waits for a response
and reads it before it asks again; nothing holds the other to its turn. While it answers only what
it has taken, it either waits, with at most one message under way, or holds the one request that is
unanswered. -/

namespace EntroQ.Foundation

structure Exchange (α β : Type*) where
  awaiting : Bool := false
  inbox : List α := []
  outbox : List β := []
  asked : ℕ := 0
  answered : ℕ := 0
  deriving DecidableEq

namespace Exchange
variable {α β : Type*} (x : Exchange α β)

def ask (a : α) : Exchange α β :=
  if x.awaiting then x
  else { x with awaiting := true, inbox := x.inbox ++ [a], asked := x.asked + 1 }

/-- The request at the head is taken, and these are left. -/
def take (rest : List α) : Exchange α β := { x with inbox := rest }

def answer (b : β) : Exchange α β := { x with outbox := x.outbox ++ [b], answered := x.answered + 1 }

/-- The response at the head is read, and these are left. -/
def read (rest : List β) : Exchange α β := { x with awaiting := false, outbox := rest }

def unanswered : ℤ := x.asked - x.answered

/-- The answering party has nothing to answer. -/
inductive Waits : Prop
  | idle (awaiting : x.awaiting = false) (inbox : x.inbox = []) (outbox : x.outbox = [])
      (even : x.asked = x.answered)
  | asked (a : α) (awaiting : x.awaiting = true) (inbox : x.inbox = [a]) (outbox : x.outbox = [])
      (odd : x.asked = x.answered + 1)
  | answered (b : β) (awaiting : x.awaiting = true) (inbox : x.inbox = []) (outbox : x.outbox = [b])
      (even : x.asked = x.answered)

/-- The answering party has the one request that is unanswered. -/
structure Holds : Prop where
  awaiting : x.awaiting = true
  inbox : x.inbox = []
  outbox : x.outbox = []
  odd : x.asked = x.answered + 1

variable {x}

theorem Holds.unanswered (h : x.Holds) : x.unanswered = 1 := by
  have := h.odd
  unfold Exchange.unanswered
  omega

theorem Holds.ask (h : x.Holds) (a : α) : x.ask a = x := by
  rw [Exchange.ask, h.awaiting, if_pos rfl]

theorem Holds.answer (h : x.Holds) (b : β) : (x.answer b).Waits :=
  .answered b h.awaiting h.inbox (by rw [Exchange.answer, h.outbox]; rfl) h.odd

theorem Waits.ask (h : x.Waits) (a : α) : (x.ask a).Waits := by
  cases h with
  | idle awaiting inbox outbox even =>
    rw [Exchange.ask, awaiting, if_neg Bool.false_ne_true]
    exact .asked a rfl (by rw [inbox]; rfl) outbox (congrArg (· + 1) even)
  | asked a' awaiting inbox outbox odd =>
    rw [Exchange.ask, awaiting, if_pos rfl]
    exact .asked a' awaiting inbox outbox odd
  | answered b awaiting inbox outbox even =>
    rw [Exchange.ask, awaiting, if_pos rfl]
    exact .answered b awaiting inbox outbox even

/-- A request that is taken is the only one. -/
theorem Waits.take (h : x.Waits) {a : α} {rest : List α} (hin : x.inbox = a :: rest) :
    (x.take rest).Holds := by
  cases h with
  | idle _ inbox => cases inbox.symm.trans hin
  | asked a' awaiting inbox outbox odd =>
    cases inbox.symm.trans hin
    exact ⟨awaiting, rfl, outbox, odd⟩
  | answered _ _ inbox => cases inbox.symm.trans hin

/-- A response that is read is the only message under way. -/
theorem Waits.read (h : x.Waits) {b : β} {rest : List β} (hout : x.outbox = b :: rest) :
    (x.read rest).Waits ∧ x.inbox = [] ∧ rest = [] := by
  cases h with
  | idle _ _ outbox => cases outbox.symm.trans hout
  | asked _ _ _ outbox => cases outbox.symm.trans hout
  | answered b' awaiting inbox outbox even =>
    cases outbox.symm.trans hout
    exact ⟨.idle rfl inbox rfl even, inbox, rfl⟩

end Exchange

end EntroQ.Foundation
