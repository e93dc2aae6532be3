import HeapStore.Library.Effect
import HeapStore.BlockIo.Requests
import Mathlib.Data.Nat.Log

/-! The asynchronous backend: requests are cut into segments, kept in flight up
to the queue depth, and resubmitted for the rest whenever the kernel answers
short. The kernel is free to choose which operations complete at each wait, in
which order, and with which results. -/
namespace HeapStore.BlockIo

structure IoSegment where
  offset : Nat
  pointer : Nat
  len : Nat
  deriving DecidableEq, Repr

/-- A submission: one segment as it was when it was pushed, and its number. -/
structure Entry where
  userData : Nat
  offset : Nat
  pointer : Nat
  len : Nat
  deriving DecidableEq, Repr

/-- The answer to one submission: the bytes moved, or a negated error number. -/
structure Completion where
  userData : Nat
  result : Int
  deriving DecidableEq, Repr

/-- Answers that a wait may yield: at least one, no submission answered twice,
each for a submission in flight, at most its length, and for a read of some
length no byte exactly at or past the end of the file. -/
structure Answers (isRead : Bool) (size : Nat) (inFlight : List Entry)
    (completions : List Completion) : Prop where
  some : completions ≠ []
  once : (completions.map Completion.userData).Nodup
  submitted : ∀ c ∈ completions, ∃ e ∈ inFlight, e.userData = c.userData ∧ c.result ≤ e.len ∧
    (isRead = true → 0 < e.len → 0 ≤ c.result → (c.result = 0 ↔ size ≤ e.offset))

/-- A kernel: what each wait yields, from the number of the wait, the size of
the file and the submissions in flight. -/
structure Kernel where
  completions : (wait : Nat) → (isRead : Bool) → (size : Nat) → List Entry → List Completion
  answers : ∀ wait isRead size inFlight, inFlight ≠ [] →
    Answers isRead size inFlight (completions wait isRead size inFlight)

/-- The submission queue of a ring: what was pushed and what is in flight. -/
structure Ring where
  entries : Nat
  queue : List Entry
  inFlight : List Entry

structure UringIo where
  entries : Nat
  depth : Nat
  chunk : Nat
  deriving DecidableEq, Repr

structure UringRun where
  segments : List IoSegment
  next : Nat
  pending : Nat
  error : Option HeapError
  ring : Ring
  counters : IoCounters
  world : World
  completed : List Completion
  waits : Nat

abbrev UringM := EStateM Failure UringRun

namespace UringIo

def nextPowerOfTwo (n : Nat) : Nat := 2 ^ Nat.clog 2 n

def new (depth chunk : Nat) : Except HeapError UringIo :=
  if chunk = 0 then .error (.invalidArg "io chunk must be greater than zero")
  else .ok ⟨nextPowerOfTwo (max depth 1), max depth 1, chunk⟩

/-- The operation for a segment; its length field has 32 bits. -/
def entryOf (segment : IoSegment) (userData : Nat) : Entry :=
  ⟨userData, segment.offset, segment.pointer, segment.len % 2 ^ 32⟩

def push (e : Entry) : UringM Unit := fun s =>
  if s.ring.queue.length < s.ring.entries then
    .ok () { s with ring := { s.ring with queue := s.ring.queue ++ [e] } }
  else .error (.panic "sq full") s

def segmentAt (i : Nat) : UringM IoSegment := fun s =>
  match s.segments[i]? with
  | some segment => .ok segment s
  | none => .error (.panic "index out of bounds") s

def submitNext : UringM Unit := do
  let s ← get
  let segment ← segmentAt s.next
  push (entryOf segment s.next)
  modify fun s => { s with next := s.next + 1, pending := s.pending + 1 }

/-- Keep the queue full while segments remain and no error was seen. Each round
takes one segment, so that many rounds as segments are enough. -/
def fill (depth : Nat) : Nat → UringM Unit
  | 0 => return ()
  | fuel + 1 => do
      let s ← get
      if s.pending < depth ∧ s.next < s.segments.length ∧ s.error = none then do
        submitNext
        fill depth fuel
      else return ()

/-- The kernel finishes one operation: its bytes have moved, and it is no
longer in flight. -/
def perform (isRead : Bool) (s : UringRun) (c : Completion) : UringRun :=
  match s.ring.inFlight.find? fun e => e.userData == c.userData with
  | none => s
  | some e =>
      { s with
        ring := { s.ring with inFlight := s.ring.inFlight.filter fun e => e.userData != c.userData }
        world := s.world.transfer isRead e.offset e.pointer c.result.toNat
        completed := s.completed ++ [c] }

/-- Hand the pushed operations to the kernel and collect what it completes. -/
def submitAndWait (kernel : Kernel) (isRead : Bool) : UringM (List Completion) := fun s =>
  let submitted := s.ring.inFlight ++ s.ring.queue
  let completions := kernel.completions s.waits isRead s.world.file.size submitted
  let waiting : UringRun :=
    { s with ring := { s.ring with queue := [], inFlight := submitted }, waits := s.waits + 1 }
  .ok completions (completions.foldl (perform isRead) waiting)

/-- The first error is the one that is reported. -/
def noteError (s : UringRun) : UringRun := { s with error := some (s.error.getD .io) }

def updateSegment (i : Nat) (segment : IoSegment) (s : UringRun) : UringRun :=
  { s with segments := s.segments.set i segment }

def complete (isRead : Bool) (c : Completion) : UringM Unit := do
  let s ← get
  let pending ← subU64 s.pending 1
  modify fun s => { s with pending := pending }
  let segment ← segmentAt c.userData
  if c.result < 0 then modify noteError
  else do
    let completedBytes := c.result.toNat
    modify fun s => { s with counters := s.counters.note isRead completedBytes }
    let s ← get
    if completedBytes = segment.len ∨ s.error.isSome then return ()
    else if isRead ∧ completedBytes = 0 then
      modify fun s => { s with world := s.world.fillZero segment.pointer segment.len }
    else if ¬isRead ∧ completedBytes = 0 then modify noteError
    else do
      -- short completions continue from the remaining range
      let len ← subU64 segment.len completedBytes
      let rest : IoSegment := ⟨segment.offset + completedBytes, segment.pointer + completedBytes, len⟩
      modify (updateSegment c.userData rest)
      push (entryOf rest c.userData)
      modify fun s => { s with pending := s.pending + 1 }

def completeAll (isRead : Bool) : List Completion → UringM Unit
  | [] => return ()
  | c :: rest => do
      complete isRead c
      completeAll isRead rest

/-- The main loop, for at most `fuel` waits; the result tells whether it ended. -/
def rounds (io : UringIo) (kernel : Kernel) (isRead : Bool) : Nat → UringM Bool
  | 0 => return false
  | fuel + 1 => do
      let s ← get
      if s.next < s.segments.length ∨ 0 < s.pending then do
        fill io.depth (s.segments.length - s.next)
        let s ← get
        if s.pending = 0 then return true
        else do
          let completions ← submitAndWait kernel isRead
          completeAll isRead completions
          rounds io kernel isRead fuel
      else return true

/-- Serve all segments; the result is false when `fuel` waits did not suffice. -/
def run (io : UringIo) (kernel : Kernel) (isRead : Bool) (fuel : Nat) : UringM Bool := do
  let ended ← rounds io kernel isRead fuel
  let s ← get
  match s.error with
  | some e => if ended then throw (.error e) else return false
  | none => return ended

/-- The pieces of a buffer from `done` on, each at most a chunk long. -/
def splitFrom (chunk : Nat) (r : BlockReq) (done : Nat) : List IoSegment :=
  if _hMore : done < r.len ∧ 0 < chunk then
    ⟨r.off + done, r.pointer + done, min (r.len - done) chunk⟩ ::
      splitFrom chunk r (done + min (r.len - done) chunk)
  else []
termination_by r.len - done

def split (io : UringIo) (r : BlockReq) : List IoSegment := splitFrom io.chunk r 0

def segmentsOf (io : UringIo) (requests : List BlockReq) : List IoSegment :=
  requests.flatMap io.split

def start (io : UringIo) (w : World) (requests : List BlockReq) : UringRun :=
  { segments := io.segmentsOf requests
    next := 0
    pending := 0
    error := none
    ring := ⟨io.entries, [], []⟩
    counters := .zero
    world := w
    completed := []
    waits := 0 }

def readVec (io : UringIo) (kernel : Kernel) (fuel : Nat) (requests : List BlockReq) (w : World) :
    EStateM.Result Failure UringRun Bool :=
  io.run kernel true fuel (io.start w requests)

def writeVec (io : UringIo) (kernel : Kernel) (fuel : Nat) (requests : List BlockReq) (w : World) :
    EStateM.Result Failure UringRun Bool :=
  io.run kernel false fuel (io.start w requests)

end UringIo

end HeapStore.BlockIo
