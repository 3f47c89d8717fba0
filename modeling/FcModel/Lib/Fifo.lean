import FcModel.Lib.Machine

-- The abstract first-in first-out queue: its state is the list of the elements that were written
-- and have not left the queue, oldest first.

namespace Fifo

variable {α : Type}

inductive Op (α : Type)
  | write (xs : List α)
  | read (n : Nat)
  | peek (offset n : Nat)
  | skip (n : Nat)
  | reset
  | idle

namespace Op

def written : Op α → List α
  | write xs => xs
  | _        => []

-- What an operation takes off the front of the queue, whether it is handed out or thrown away.
def taken (q : List α) : Op α → List α
  | read n | skip n => q.take n
  | reset           => q
  | _               => []

end Op

-- A peek beyond the end shows nothing.
def step (q : List α) : Op α → List α × List α
  | .write xs       => ([], q ++ xs)
  | .read n         => (q.take n, q.drop n)
  | .peek offset n  => (if offset + n ≤ q.length then (q.drop offset).take n else [], q)
  | .skip n         => ([], q.drop n)
  | .reset          => ([], [])
  | .idle           => ([], q)

def written (ops : List (Op α)) : List α :=
  ops.flatMap Op.written

def taken (q : List α) : List (Op α) → List α
  | []        => []
  | op :: ops => op.taken q ++ taken (step q op).2 ops

theorem step_conserves (q : List α) (op : Op α) :
    q ++ op.written = op.taken q ++ (step q op).2 := by
  cases op <;> simp [Op.written, Op.taken, step]

-- No element is lost, duplicated or reordered: what was written is what was taken off the queue
-- followed by what is still in it.
theorem run_conserves (q : List α) (ops : List (Op α)) :
    q ++ written ops = taken q ops ++ (Machine.specRun step q ops).2 := by
  induction ops generalizing q
  case nil => simp [written, taken, Machine.specRun]
  case cons op ops hi =>
    calc q ++ written (op :: ops)
        = q ++ op.written ++ written ops := by simp [written]
      _ = op.taken q ++ ((step q op).2 ++ written ops) := by rw [step_conserves, List.append_assoc]
      _ = op.taken q ++ (taken (step q op).2 ops ++ _) := by rw [hi]
      _ = _ := by simp [taken, Machine.specRun]

end Fifo
