import TwoPhase.Program
import TwoPhase.Store

/-!
# Generated workloads

A workload of a given shape, made from random draws. The draws are an argument,
so everything here is a function of its input; whoever calls it brings the
randomness, and the clock. A draw is brought into the range of the shape, and a
draw that is in range counts as it is.
-/

namespace TwoPhase

structure Shape where
  id : Nat := 0
  records : Nat
  transactions : Nat
  /-- Reads and writes of each program, not counting its commit. -/
  operations : Nat
  /-- Written values lie between 0 and this one. -/
  maxValue : Value := 9
deriving DecidableEq, Repr

structure Draw where
  record : Nat
  reads : Bool
  value : Nat
deriving DecidableEq, Repr

namespace Shape

/-- The operations that stay in range: records of the store, and values from 0 to the largest one
(to 0 if that is negative). -/
def allows (shape : Shape) : Operation → Bool
  | .read record => record.toNat < shape.records
  | .write record value =>
    record.toNat < shape.records && 0 ≤ value.toInt && value.toInt ≤ max shape.maxValue.toInt 0
  | .commit => true

/-- The operation that is drawn; a negative largest value counts as 0. -/
def drawn (shape : Shape) (draw : Draw) : Operation :=
  let record := UInt64.ofNat (draw.record % shape.records)
  if draw.reads then .read record
  else .write record (Int64.ofNat (draw.value % (shape.maxValue.toInt.toNat + 1)))

/-- The operations of one program. Without records there is nothing to do but commit. -/
def drawnOperations (shape : Shape) (draws : Nat → Draw) : List Operation :=
  if shape.records = 0 then [.commit]
  else (List.range shape.operations).map (fun i => shape.drawn (draws i)) ++ [.commit]

def drawnPrograms (shape : Shape) (draws : Nat → Nat → Draw) : Except Error (List Program) :=
  (List.range shape.transactions).mapM fun i =>
    Program.ofOperations (shape.drawnOperations (draws i))

end Shape

/-- A generated workload, and when the making of it began and ended. -/
structure Sample (Time : Type) where
  shape : Shape
  info : String
  started : Time
  finished : Time
  programs : List Program
deriving DecidableEq

namespace Sample

variable {Time : Type}

def duration (elapsed : Time → Time → Int) (s : Sample Time) : Int := elapsed s.started s.finished

def initialStore (s : Sample Time) : Store := .identity s.shape.records

def generate (shape : Shape) (draws : Nat → Nat → Draw) (started finished : Time) :
    Except Error (Sample Time) :=
  (shape.drawnPrograms draws).map fun programs =>
    ⟨shape, "generated", started, finished, programs⟩

end Sample

end TwoPhase
