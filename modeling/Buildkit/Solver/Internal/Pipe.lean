import Mathlib.Data.List.Induction
import Buildkit.Lib.Loop

/-!
# Pipes between a sender and a receiver

`solver/internal/pipe/pipe.go`: a pipe carries the statuses of one request from its sender to
its receiver, and the request's cancellation back. Each direction is a `channel`, an
`atomic.Value` and the value its reader received last: `Send` stores a value, and `Receive`
loads the stored one and takes it when it differs from the last it took. The sender stores its
whole status on every `Update` and `Finalize`; the receiver's `Cancel` stores the request marked
canceled, and the completion hook of that channel, on the same goroutine, hands it to the sender
(`setRequest`) and calls `OnReceiveCompletion`, which for a pipe of `NewWithFunction` cancels the
context of its function.

The sender and the receiver run on goroutines of their own, so a run of a pipe is any sequence of
their operations (`Action`), each a step of `Pipe.step`. An operation touches the other side only
through a channel, and the sender reads the request only through `setRequest`'s write, so an
operation is one step whatever the other side does in between.

What is proved, of every run: the channel holds the sender's last status, and the receiver the
status it took last (`Inv`); so one `Receive` leaves the receiver with the sender's last status,
whatever came before (`receive_catches_up`), and what the receiver holds is the status the sender
had at some earlier point of the run (`receiverStatus_was_sent`). A status once completed stays
completed on both sides (`receiver_completed_stays`); a cancellation reaches the sender and the
function's context exactly when `Cancel` was called (`senderReq_run`); and a status is canceled
only when completed, sent by a `Finalize` after a `Cancel` (`canceled_after_cancel`).

Representation. `nil` of `Payload`, `Err` and `Value` is `none`; `errors.Cause(err) ==
context.Canceled` is a predicate on the errors (`isCanceled`). The values are compared as Go
compares them, field by field (`DecidableEq`). `OnSendCompletion`, which the scheduler sets to
signal an edge, and the `OnReceiveCompletion` of `newPipe` change nothing of the pipe and are left
out.
-/

namespace Buildkit

-- the types of the package `pipe` beside `Pipe`, under its name
namespace Pipe

/-- `Request`. -/
structure Request (π : Type) where
  payload : π
  canceled : Bool
  deriving DecidableEq, Repr

/-- `Status`. -/
structure Status (α ε : Type) where
  canceled : Bool
  completed : Bool
  err : Option ε
  value : Option α
  deriving DecidableEq, Repr

/-- The zero `Status{}` a receiver holds before it takes a status. -/
def Status.zero {α ε : Type} : Status α ε := ⟨false, false, none, none⟩

/-- `channel`: what its `atomic.Value` holds, `nil` before the first `Store`, and `lastValue`. -/
structure Channel (β : Type) where
  value : Option β
  lastValue : Option β
  deriving DecidableEq, Repr

namespace Channel

variable {β : Type} [DecidableEq β]

/-- A channel nothing was sent on. -/
def empty : Channel β := ⟨none, none⟩

/-- `Send`, before its completion hook: `value.Store(v)`. -/
def store (c : Channel β) (v : β) : Channel β := { c with value := some v }

/-- `Receive`: the value stored, if it is not the value received last. The value is `nil` only
before the first `Store`, when `lastValue` is `nil` too, so a value taken is never `nil`. -/
def receive (c : Channel β) : Option β × Channel β :=
  if c.lastValue = c.value then (none, c) else (c.value, { c with lastValue := c.value })

section Lemmas

variable (c : Channel β)

@[simp] theorem receive_value : c.receive.2.value = c.value := by
  unfold receive
  split <;> rfl

@[simp] theorem receive_lastValue : c.receive.2.lastValue = c.value := by
  unfold receive
  split
  · assumption
  · rfl

theorem receive_fst : c.receive.1 = if c.lastValue = c.value then none else c.value := by
  unfold receive
  split <;> rfl

end Lemmas

end Channel

/-- An operation of the sender or of the receiver. -/
inductive Action (α ε : Type)
  | update (v : Option α)
  | finalize (v : Option α) (err : Option ε)
  | receive
  | cancel
  deriving DecidableEq, Repr

end Pipe

/-- A pipe: the status and the request of each side, the channel of the statuses (`roundTripCh`)
and that of the cancellation (`cancelCh`), whether it was made by `NewWithFunction`, and whether
the context of its function was canceled. -/
structure Pipe (π α ε : Type) where
  senderStatus : Pipe.Status α ε
  senderReq : Pipe.Request π
  receiverStatus : Pipe.Status α ε
  receiverReq : Pipe.Request π
  roundTrip : Pipe.Channel (Pipe.Status α ε)
  cancelCh : Pipe.Channel (Pipe.Request π)
  withFunction : Bool
  ctxCanceled : Bool

namespace Pipe

variable {π α ε : Type}

/-- `New`. -/
def new (req : Request π) : Pipe π α ε :=
  ⟨.zero, req, .zero, req, .empty, .empty, false, false⟩

/-- A pipe as `New` makes it, with the `OnReceiveCompletion` of `NewWithFunction` where
`withFunction`. -/
def start (req : Request π) (withFunction : Bool) : Pipe π α ε :=
  { new req with withFunction := withFunction }

/-- `NewWithFunction`: a pipe of `New(Request{})` whose `OnReceiveCompletion` cancels the
context of the function once the sender's request is canceled. -/
def newWithFunction : Pipe (Option π) α ε := start ⟨none, false⟩ true

variable (isCanceled : ε → Bool)

/-- `sender.Update`. -/
def update (p : Pipe π α ε) (v : Option α) : Pipe π α ε :=
  let status := { p.senderStatus with value := v }
  { p with senderStatus := status, roundTrip := p.roundTrip.store status }

/-- `sender.Finalize`: a value that is not `nil` replaces the one held; the status is canceled
where the error is `context.Canceled` and the request was canceled. -/
def finalize (p : Pipe π α ε) (v : Option α) (err : Option ε) : Pipe π α ε :=
  let status := if v.isSome then { p.senderStatus with value := v } else p.senderStatus
  let status := { status with err := err, completed := true }
  let status :=
    if err.any isCanceled && p.senderReq.canceled then { status with canceled := true } else status
  { p with senderStatus := status, roundTrip := p.roundTrip.store status }

/-- `receiver.Receive`, and whether it took a status. -/
def receive [DecidableEq α] [DecidableEq ε] (p : Pipe π α ε) : Bool × Pipe π α ε :=
  match p.roundTrip.receive with
  | (some st, ch) => (true, { p with roundTrip := ch, receiverStatus := st })
  | (none, ch) => (false, { p with roundTrip := ch })

/-- `receiver.Cancel`: the receiver's request, marked canceled, is sent on `cancelCh`, whose
completion hook gives the sender what it receives and calls `OnReceiveCompletion`. The
receiver's own request is a copy and stays as it was. -/
def cancel [DecidableEq π] (p : Pipe π α ε) : Pipe π α ε :=
  if p.receiverReq.canceled then p
  else
    let (v, ch) := (p.cancelCh.store { p.receiverReq with canceled := true }).receive
    let p := { p with cancelCh := ch, senderReq := v.getD p.senderReq }
    if p.withFunction && p.senderReq.canceled then { p with ctxCanceled := true } else p

section Step

variable [DecidableEq π] [DecidableEq α] [DecidableEq ε]

/-- One operation of either side. -/
def step (p : Pipe π α ε) : Action α ε → Pipe π α ε
  | .update v => p.update v
  | .finalize v err => p.finalize isCanceled v err
  | .receive => p.receive.2
  | .cancel => p.cancel

/-- The pipe after the operations `acts`, in the order they happened. -/
def run (p : Pipe π α ε) (acts : List (Action α ε)) : Pipe π α ε := acts.foldl (step isCanceled) p

end Step

/-! ## One operation -/

section Receive

variable [DecidableEq α] [DecidableEq ε] {p : Pipe π α ε}

/-- `Receive` takes what `receive` of the channel returns, if anything. -/
theorem receive_eq : p.receive.2 =
    { p with roundTrip := p.roundTrip.receive.2,
             receiverStatus := p.roundTrip.receive.1.getD p.receiverStatus } := by
  unfold Pipe.receive
  split <;> simp_all

@[simp] theorem receive_senderStatus : p.receive.2.senderStatus = p.senderStatus := by
  rw [receive_eq]

@[simp] theorem receive_senderReq : p.receive.2.senderReq = p.senderReq := by rw [receive_eq]

@[simp] theorem receive_receiverReq : p.receive.2.receiverReq = p.receiverReq := by rw [receive_eq]

@[simp] theorem receive_cancelCh : p.receive.2.cancelCh = p.cancelCh := by rw [receive_eq]

@[simp] theorem receive_withFunction : p.receive.2.withFunction = p.withFunction := by
  rw [receive_eq]

@[simp] theorem receive_ctxCanceled : p.receive.2.ctxCanceled = p.ctxCanceled := by
  rw [receive_eq]

@[simp] theorem receive_roundTrip : p.receive.2.roundTrip = p.roundTrip.receive.2 := by
  rw [receive_eq]

end Receive

/-- The status `Finalize` stores: completed, with the error given, and canceled where it was or
where the error is `context.Canceled` and the request canceled. -/
theorem finalize_senderStatus {p : Pipe π α ε} (v : Option α) (err : Option ε) :
    (p.finalize isCanceled v err).senderStatus =
      { p.senderStatus with
        value := if v.isSome then v else p.senderStatus.value
        err := err
        completed := true
        canceled := err.any isCanceled && p.senderReq.canceled || p.senderStatus.canceled } := by
  unfold Pipe.finalize
  by_cases hv : v.isSome <;> by_cases hc : (err.any isCanceled && p.senderReq.canceled) = true <;>
    simp [hv, hc]

section Cancel

variable [DecidableEq π] {p : Pipe π α ε}

/-- `Cancel` of a request not canceled before, with the hook of `cancelCh` having taken every
earlier one: the sender holds the request canceled from then on, and the context of a function
is canceled. -/
theorem cancel_of_not_canceled (hn : p.receiverReq.canceled = false)
    (hl : p.cancelCh.lastValue = p.cancelCh.value)
    (hs : p.senderReq =
      if p.cancelCh.value.isSome then { p.receiverReq with canceled := true } else p.receiverReq)
    (hv : p.cancelCh.value = none ∨ p.cancelCh.value = some { p.receiverReq with canceled := true }) :
    p.cancel = { p with cancelCh := ⟨some { p.receiverReq with canceled := true },
                                      some { p.receiverReq with canceled := true }⟩,
                        senderReq := { p.receiverReq with canceled := true },
                        ctxCanceled := p.withFunction || p.ctxCanceled } := by
  unfold Pipe.cancel
  rw [if_neg (by simp [hn])]
  rcases hv with hv | hv
  · simp [Channel.store, Channel.receive, hl, hv]
    cases p.withFunction <;> simp
  · -- a second `Cancel` sends the value the hook took last, and the sender keeps it
    simp only [hv, Option.isSome_some, if_true] at hs
    simp [Channel.store, Channel.receive, hl, hv, hs]
    cases p.withFunction <;> simp

/-- `Cancel` changes the sender's request, `cancelCh` and the context only. -/
theorem cancel_eq_with :
    ∃ sr cc ctx, p.cancel = { p with senderReq := sr, cancelCh := cc, ctxCanceled := ctx } := by
  unfold Pipe.cancel
  split
  · exact ⟨_, _, _, rfl⟩
  · generalize (p.cancelCh.store _).receive = r
    obtain ⟨v, ch⟩ := r
    dsimp only
    split
    · exact ⟨_, _, _, rfl⟩
    · exact ⟨_, _, _, rfl⟩

theorem cancel_receiverStatus : p.cancel.receiverStatus = p.receiverStatus := by
  obtain ⟨_, _, _, h⟩ := cancel_eq_with (p := p)
  rw [h]

theorem cancel_senderStatus : p.cancel.senderStatus = p.senderStatus := by
  obtain ⟨_, _, _, h⟩ := cancel_eq_with (p := p)
  rw [h]

theorem cancel_receiverReq : p.cancel.receiverReq = p.receiverReq := by
  obtain ⟨_, _, _, h⟩ := cancel_eq_with (p := p)
  rw [h]

theorem cancel_withFunction : p.cancel.withFunction = p.withFunction := by
  obtain ⟨_, _, _, h⟩ := cancel_eq_with (p := p)
  rw [h]

end Cancel

section Step

variable [DecidableEq π] [DecidableEq α] [DecidableEq ε] {p : Pipe π α ε}

@[simp] theorem step_receiverReq (a : Action α ε) :
    (p.step isCanceled a).receiverReq = p.receiverReq := by
  cases a with
  | cancel => exact cancel_receiverReq
  | receive => exact receive_receiverReq
  | update v => rfl
  | finalize v err => rfl

@[simp] theorem step_withFunction (a : Action α ε) :
    (p.step isCanceled a).withFunction = p.withFunction := by
  cases a with
  | cancel => exact cancel_withFunction
  | receive => exact receive_withFunction
  | update v => rfl
  | finalize v err => rfl

/-- Only `Cancel` sends on `cancelCh`. -/
theorem step_cancelCh_of_ne {a : Action α ε} (ha : a ≠ .cancel) :
    (p.step isCanceled a).cancelCh = p.cancelCh := by
  cases a with
  | cancel => exact absurd rfl ha
  | receive => exact receive_cancelCh
  | update v => rfl
  | finalize v err => rfl

/-- Only `Receive` changes the receiver's status. -/
theorem step_receiverStatus_of_ne {a : Action α ε} (ha : a ≠ .receive) :
    (p.step isCanceled a).receiverStatus = p.receiverStatus := by
  cases a with
  | cancel => exact cancel_receiverStatus
  | receive => exact absurd rfl ha
  | update v => rfl
  | finalize v err => rfl

end Step

/-! ## What every run keeps -/

/-- What holds of every pipe a run reaches. The channel of statuses holds the sender's status
once the sender has sent, and the receiver the status it took last; a completed status the
receiver holds is the sender's too, and a canceled one on either side is completed, with the
sender's request canceled. Every `Cancel` was taken at once by the hook of `cancelCh`, which then
holds the receiver's request, canceled; the sender holds that request from the first `Cancel`
on, and the context of a function is canceled from then on. -/
structure Inv (p : Pipe π α ε) : Prop where
  sent : p.roundTrip.value = none ∧ p.senderStatus = .zero ∨ p.roundTrip.value = some p.senderStatus
  nilTaken : p.roundTrip.value = none → p.roundTrip.lastValue = none
  taken : p.roundTrip.lastValue = none ∧ p.receiverStatus = .zero ∨
    p.roundTrip.lastValue = some p.receiverStatus
  completed : p.receiverStatus.completed = true → p.senderStatus.completed = true
  senderCanceled : p.senderStatus.canceled = true →
    p.senderStatus.completed = true ∧ p.senderReq.canceled = true
  receiverCanceled : p.receiverStatus.canceled = true →
    p.receiverStatus.completed = true ∧ p.senderReq.canceled = true
  cancelTaken : p.cancelCh.lastValue = p.cancelCh.value
  cancelSent : p.cancelCh.value = none ∨
    p.cancelCh.value = some { p.receiverReq with canceled := true } ∧ p.receiverReq.canceled = false
  senderReq : p.senderReq =
    if p.cancelCh.value.isSome then { p.receiverReq with canceled := true } else p.receiverReq
  ctx : p.ctxCanceled = (p.withFunction && p.cancelCh.value.isSome)

theorem inv_start (req : Request π) (b : Bool) : Inv (start req b : Pipe π α ε) where
  sent := .inl ⟨rfl, rfl⟩
  nilTaken _ := rfl
  taken := .inl ⟨rfl, rfl⟩
  completed := nofun
  senderCanceled := nofun
  receiverCanceled := nofun
  cancelTaken := rfl
  cancelSent := .inl rfl
  senderReq := rfl
  ctx := by simp [start, new, Channel.empty]

namespace Inv

variable {p : Pipe π α ε} (h : Inv p)
include h

section Receive

variable [DecidableEq α] [DecidableEq ε]

/-- `Receive` leaves the receiver with the sender's status. -/
theorem receive_receiverStatus : p.receive.2.receiverStatus = p.senderStatus := by
  rw [receive_eq, Channel.receive_fst]
  dsimp only
  by_cases hl : p.roundTrip.lastValue = p.roundTrip.value
  · -- nothing new: the receiver holds what the channel holds, the sender's status
    rw [if_pos hl, Option.getD_none]
    rcases h.sent with ⟨hv, hs⟩ | hv
    · rcases h.taken with ⟨-, hr⟩ | hr
      · rw [hr, hs]
      · rw [hl, hv] at hr
        cases hr
    · rcases h.taken with ⟨hn, -⟩ | hr
      · rw [hl, hv] at hn
        cases hn
      · rw [hl, hv] at hr
        exact (Option.some.inj hr).symm
  · rw [if_neg hl]
    rcases h.sent with ⟨hv, -⟩ | hv
    · exact absurd (hv ▸ h.nilTaken hv) hl
    · rw [hv, Option.getD_some]

/-- A `Receive` that takes nothing finds the receiver holding the sender's status. -/
theorem receiverStatus_of_receive_false (hr : p.receive.1 = false) :
    p.receiverStatus = p.senderStatus := by
  have hnone : p.roundTrip.receive.1 = none := by
    rcases hrc : p.roundTrip.receive with ⟨_ | st, ch⟩
    · rfl
    · simp [Pipe.receive, hrc] at hr
  rw [← h.receive_receiverStatus, receive_eq, hnone]
  rfl

end Receive

theorem update (v : Option α) : Inv (p.update v) :=
  ⟨.inr rfl, nofun, h.taken, h.completed, h.senderCanceled, h.receiverCanceled, h.cancelTaken,
    h.cancelSent, h.senderReq, h.ctx⟩

theorem finalize (v : Option α) (err : Option ε) : Inv (p.finalize isCanceled v err) := by
  have hst := finalize_senderStatus isCanceled (p := p) v err
  refine ⟨.inr rfl, nofun, h.taken, fun _ => by rw [hst], fun hc => ⟨by rw [hst], ?_⟩,
    h.receiverCanceled, h.cancelTaken, h.cancelSent, h.senderReq, h.ctx⟩
  -- a canceled status was canceled before, or the request was canceled
  rw [hst] at hc
  simp only [Bool.or_eq_true, Bool.and_eq_true] at hc
  rcases hc with ⟨-, hreq⟩ | hc
  · exact hreq
  · exact (h.senderCanceled hc).2

theorem receive [DecidableEq α] [DecidableEq ε] : Inv p.receive.2 := by
  have hr := h.receive_receiverStatus
  refine ⟨?_, ?_, ?_, fun _ => ?_, ?_, fun hc => ?_, ?_, ?_, ?_, ?_⟩ <;>
    simp only [receive_senderStatus, receive_senderReq, receive_receiverReq, receive_cancelCh,
      receive_withFunction, receive_ctxCanceled, receive_roundTrip, Channel.receive_value,
      Channel.receive_lastValue, hr] at *
  · exact h.sent
  · exact id
  · rcases h.sent with ⟨hv, hs⟩ | hv
    · exact .inl ⟨hv, hs⟩
    · exact .inr hv
  · assumption
  · exact h.senderCanceled
  · exact h.senderCanceled hc
  · exact h.cancelTaken
  · exact h.cancelSent
  · exact h.senderReq
  · exact h.ctx

theorem cancel [DecidableEq π] : Inv p.cancel := by
  by_cases hn : p.receiverReq.canceled = true
  · unfold Pipe.cancel
    rw [if_pos hn]
    exact h
  · have hv : p.cancelCh.value = none ∨
        p.cancelCh.value = some { p.receiverReq with canceled := true } := by
      rcases h.cancelSent with hv | ⟨hv, -⟩
      · exact .inl hv
      · exact .inr hv
    rw [cancel_of_not_canceled (by simpa using hn) h.cancelTaken h.senderReq hv]
    refine ⟨h.sent, h.nilTaken, h.taken, h.completed, fun hc => ⟨(h.senderCanceled hc).1, rfl⟩,
      fun hc => ⟨(h.receiverCanceled hc).1, rfl⟩, rfl, .inr ⟨rfl, by simpa using hn⟩, by simp, ?_⟩
    rw [h.ctx]
    cases p.withFunction <;> simp

theorem step [DecidableEq π] [DecidableEq α] [DecidableEq ε] (a : Action α ε) :
    Inv (p.step isCanceled a) := by
  cases a with
  | update v => exact h.update v
  | finalize v err => exact h.finalize isCanceled v err
  | receive => exact h.receive
  | cancel => exact h.cancel

end Inv

/-- A completed status stays completed, on the sender's side, and on the receiver's, which takes
the sender's. -/
theorem Inv.step_completed [DecidableEq π] [DecidableEq α] [DecidableEq ε] {p : Pipe π α ε}
    (h : Inv p) (hr : p.receiverStatus.completed = true)
    (hs : p.senderStatus.completed = true) (a : Action α ε) :
    (p.step isCanceled a).receiverStatus.completed = true ∧
      (p.step isCanceled a).senderStatus.completed = true := by
  cases a with
  | update v => exact ⟨hr, hs⟩
  | finalize v err => exact ⟨hr, by simp [Pipe.step, finalize_senderStatus]⟩
  | receive =>
    refine ⟨?_, by simpa [Pipe.step] using hs⟩
    simpa [Pipe.step, h.receive_receiverStatus] using hs
  | cancel => exact ⟨by simpa [Pipe.step, cancel_receiverStatus] using hr,
      by simpa [Pipe.step, cancel_senderStatus] using hs⟩

/-! ## Every run -/

section Run

variable [DecidableEq π] [DecidableEq α] [DecidableEq ε] (req : Request π) (b : Bool)

theorem run_append (p : Pipe π α ε) (acts acts' : List (Action α ε)) :
    p.run isCanceled (acts ++ acts') = (p.run isCanceled acts).run isCanceled acts' :=
  List.foldl_append

theorem run_concat (p : Pipe π α ε) (acts : List (Action α ε)) (a : Action α ε) :
    p.run isCanceled (acts ++ [a]) = (p.run isCanceled acts).step isCanceled a := by
  rw [run_append]
  rfl

theorem inv_run (acts : List (Action α ε)) : Inv ((start req b : Pipe π α ε).run isCanceled acts) :=
  Loop.foldl_inv Inv acts (fun a _ _ hq => hq.step isCanceled a) (inv_start req b)

theorem receiverReq_run (acts : List (Action α ε)) :
    ((start req b : Pipe π α ε).run isCanceled acts).receiverReq = req :=
  Loop.foldl_inv (fun q : Pipe π α ε => q.receiverReq = req) acts
    (fun a _ _ hq => by rw [step_receiverReq, hq]) rfl

theorem withFunction_run (acts : List (Action α ε)) :
    ((start req b : Pipe π α ε).run isCanceled acts).withFunction = b :=
  Loop.foldl_inv (fun q : Pipe π α ε => q.withFunction = b) acts
    (fun a _ _ hq => by rw [step_withFunction, hq]) rfl

/-- Something was sent on `cancelCh` exactly when the receiver's request was not canceled and
`Cancel` was called. -/
theorem cancelCh_isSome_run (acts : List (Action α ε)) :
    ((start req b : Pipe π α ε).run isCanceled acts).cancelCh.value.isSome = true ↔
      req.canceled = false ∧ .cancel ∈ acts := by
  induction acts using List.reverseRecOn with
  | nil => simp [run, start, new, Channel.empty]
  | append_singleton acts a ih =>
    rw [run_concat]
    by_cases ha : a = .cancel
    · subst ha
      have hi := inv_run isCanceled req b acts
      have hreq := receiverReq_run isCanceled req b acts
      by_cases hc : req.canceled = true
      · -- a canceled request is never sent
        have hs : ((start req b : Pipe π α ε).run isCanceled acts).cancel =
            (start req b : Pipe π α ε).run isCanceled acts := by
          have hc' : ((start req b : Pipe π α ε).run isCanceled acts).receiverReq.canceled = true := by
            rw [hreq]
            exact hc
          unfold Pipe.cancel
          rw [if_pos hc']
        simp only [step, hs, ih, hc]
        simp
      · have hv : ((start req b : Pipe π α ε).run isCanceled acts).cancelCh.value = none ∨
            ((start req b : Pipe π α ε).run isCanceled acts).cancelCh.value =
              some { ((start req b : Pipe π α ε).run isCanceled acts).receiverReq with
                canceled := true } := by
          rcases hi.cancelSent with hv | ⟨hv, -⟩
          · exact .inl hv
          · exact .inr hv
        rw [step, cancel_of_not_canceled (by simpa [hreq] using hc) hi.cancelTaken hi.senderReq hv]
        simp [hc]
    · rw [step_cancelCh_of_ne isCanceled ha, ih]
      simp [Ne.symm ha]

/-- The sender's request is canceled only where it was canceled to begin with or `Cancel` was
called. -/
theorem senderReq_canceled_run {acts : List (Action α ε)}
    (h : ((start req b : Pipe π α ε).run isCanceled acts).senderReq.canceled = true) :
    req.canceled = true ∨ .cancel ∈ acts := by
  rw [(inv_run isCanceled req b acts).senderReq, receiverReq_run] at h
  by_cases hs : ((start req b : Pipe π α ε).run isCanceled acts).cancelCh.value.isSome = true
  · exact .inr ((cancelCh_isSome_run isCanceled req b acts).mp hs).2
  · rw [if_neg hs] at h
    exact .inl h

theorem receive_catches_up (acts : List (Action α ε)) :
    ((start req b : Pipe π α ε).run isCanceled acts).receive.2.receiverStatus =
        ((start req b : Pipe π α ε).run isCanceled acts).senderStatus ∧
      (((start req b : Pipe π α ε).run isCanceled acts).receive.1 = false →
        ((start req b : Pipe π α ε).run isCanceled acts).receiverStatus =
          ((start req b : Pipe π α ε).run isCanceled acts).senderStatus) :=
  ⟨(inv_run isCanceled req b acts).receive_receiverStatus,
    (inv_run isCanceled req b acts).receiverStatus_of_receive_false⟩

theorem receiverStatus_was_sent (acts : List (Action α ε)) :
    ∃ k ≤ acts.length, ((start req b : Pipe π α ε).run isCanceled acts).receiverStatus =
      ((start req b : Pipe π α ε).run isCanceled (acts.take k)).senderStatus := by
  induction acts using List.reverseRecOn with
  | nil => exact ⟨0, Nat.le_refl 0, rfl⟩
  | append_singleton acts a ih =>
    rw [run_concat]
    by_cases ha : a = .receive
    · -- the `Receive` takes the sender's status of that moment
      subst ha
      refine ⟨acts.length, by simp, ?_⟩
      rw [List.take_left' rfl]
      exact (inv_run isCanceled req b acts).receive_receiverStatus
    · obtain ⟨k, hk, hrec⟩ := ih
      refine ⟨k, by simp; omega, ?_⟩
      rw [List.take_append_of_le_length hk, step_receiverStatus_of_ne isCanceled ha, hrec]

theorem receiver_completed_stays (acts acts' : List (Action α ε))
    (h : ((start req b : Pipe π α ε).run isCanceled acts).receiverStatus.completed = true) :
    ((start req b : Pipe π α ε).run isCanceled (acts ++ acts')).receiverStatus.completed = true ∧
      ((start req b : Pipe π α ε).run isCanceled (acts ++ acts')).senderStatus.completed = true := by
  have hi := inv_run isCanceled req b acts
  rw [run_append]
  exact (Loop.foldl_inv
    (fun q : Pipe π α ε => Inv q ∧ q.receiverStatus.completed = true ∧ q.senderStatus.completed = true)
    acts' (fun a _ _ hq => ⟨hq.1.step isCanceled a, hq.1.step_completed isCanceled hq.2.1 hq.2.2 a⟩)
    ⟨hi, h, hi.completed h⟩).2

theorem receiver_completed_stays_update :
    ((start ⟨(), false⟩ false : Pipe Unit Nat String).run (· == "context canceled")
        ([.finalize (some 1) none, .receive] ++ [.update (some 2), .receive])).receiverStatus.completed =
        true ∧
      ((start ⟨(), false⟩ false : Pipe Unit Nat String).run (· == "context canceled")
        ([.finalize (some 1) none, .receive] ++ [.update (some 2), .receive])).senderStatus.completed =
        true :=
  receiver_completed_stays (· == "context canceled") ⟨(), false⟩ false
    [.finalize (some 1) none, .receive] [.update (some 2), .receive] (by decide)

theorem cancel_reaches_sender (acts : List (Action α ε)) :
    ((start req b : Pipe π α ε).run isCanceled acts).senderReq =
        (if req.canceled = false ∧ .cancel ∈ acts then { req with canceled := true } else req) ∧
      (((start req b : Pipe π α ε).run isCanceled acts).ctxCanceled = true ↔
        b = true ∧ req.canceled = false ∧ .cancel ∈ acts) := by
  have hi := inv_run isCanceled req b acts
  have hs := cancelCh_isSome_run isCanceled req b acts
  rw [hi.senderReq, hi.ctx, receiverReq_run, withFunction_run]
  by_cases hc : req.canceled = false ∧ .cancel ∈ acts
  · rw [if_pos (hs.mpr hc), if_pos hc]
    simp [hs.mpr hc, hc]
  · rw [if_neg (fun h => hc (hs.mp h)), if_neg hc]
    simp only [Bool.and_eq_true]
    refine ⟨trivial, fun ⟨_, h⟩ => absurd (hs.mp h) hc, fun ⟨_, h⟩ => absurd h hc⟩

theorem canceled_after_cancel (acts : List (Action α ε)) :
    (((start req b : Pipe π α ε).run isCanceled acts).senderStatus.canceled = true →
        ((start req b : Pipe π α ε).run isCanceled acts).senderStatus.completed = true ∧
          (req.canceled = true ∨ .cancel ∈ acts)) ∧
      (((start req b : Pipe π α ε).run isCanceled acts).receiverStatus.canceled = true →
        ((start req b : Pipe π α ε).run isCanceled acts).receiverStatus.completed = true ∧
          (req.canceled = true ∨ .cancel ∈ acts)) := by
  have hi := inv_run isCanceled req b acts
  refine ⟨fun hc => ?_, fun hc => ?_⟩
  · obtain ⟨hcomp, hreq⟩ := hi.senderCanceled hc
    exact ⟨hcomp, senderReq_canceled_run isCanceled req b hreq⟩
  · obtain ⟨hcomp, hreq⟩ := hi.receiverCanceled hc
    exact ⟨hcomp, senderReq_canceled_run isCanceled req b hreq⟩

end Run

end Pipe

end Buildkit
