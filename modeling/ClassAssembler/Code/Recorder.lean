import ClassAssembler.Code.Basic
import ClassAssembler.Code.Fault
import Std.Data.HashMap
import Std.Data.HashSet

/-!
# Recording code

A `Recorder` takes the entries of one method body from top to bottom.
-/

namespace ClassAssembler

structure Recorder where
  entries : Array Entry
  position : Nat
  reachable : Bool
  placed : Std.HashMap Label Nat
  referenced : Std.HashSet Label
  ranges : Array ExceptionRange
  maxLocals : Nat
  nextLabel : Nat

/-- A step of recording; a failing step keeps what it recorded. -/
abbrev Record := EStateM CodeFault Recorder

namespace Recorder

/-- An empty body whose parameters take `params` slots, and which hands out labels
from `nextLabel` on. -/
def start (nextLabel params : Nat) : Recorder where
  entries := #[]
  position := 0
  reachable := true
  placed := ∅
  referenced := ∅
  ranges := #[]
  maxLocals := params
  nextLabel := nextLabel

def insn (r : Recorder) (i : Instruction) : Recorder :=
  if r.reachable then
    { r with
      maxLocals := match i.localAccess? with
        | some (slot, words) => max r.maxLocals (slot.toNat + words)
        | none => r.maxLocals
      entries := r.entries.push (.insn i)
      position := r.position + 1 }
  else r

def branch (r : Recorder) (b : Branch) : Recorder :=
  if r.reachable then
    { r with
      referenced := r.referenced.insertMany b.targets
      reachable := b.fallsThrough
      entries := r.entries.push (.branch b)
      position := r.position + 1 }
  else r

def reference (r : Recorder) (label : Label) : Recorder :=
  { r with referenced := r.referenced.insert label }

def range (r : Recorder) (range : ExceptionRange) : Recorder :=
  { r.reference range.handler with ranges := r.ranges.push range }

def labelPosition? (r : Recorder) (label : Label) : Option Nat :=
  r.placed[label]?

/-- The parts of `start` to `stop` between the holes, which are in order. -/
def between (start stop : Label) : List (Label × Label) → List (Label × Label)
  | [] => [(start, stop)]
  | hole :: holes => (start, hole.1) :: between hole.2 stop holes

/-- Whether some recorded instruction lies between two labels. -/
def covers (r : Recorder) (part : Label × Label) : Bool :=
  match r.labelPosition? part.1, r.labelPosition? part.2 with
  | some start, some stop => start < stop
  | _, _ => false

/-- Sends exceptions from `start` to `stop`, the holes apart, to a handler. Parts
without an instruction get no range. -/
def protect (r : Recorder) (start stop : Label) (holes : List (Label × Label))
    (handler : Label) (caught : Option ClassName) : Recorder :=
  ((between start stop holes).filter r.covers).foldl
    (fun r part => r.range { start := part.1, stop := part.2, handler, caught }) r

/-- Labels that must be placed and are not, in ascending order. -/
def unplaced (r : Recorder) : List Label :=
  let needed := r.referenced.toList ++
    r.ranges.toList.flatMap fun range => [range.start, range.stop]
  ((needed.filter fun label => !r.placed.contains label).mergeSort
    fun a b => a.index ≤ b.index).eraseDups

def finish (r : Recorder) : Except CodeFault Code :=
  let unplaced := r.unplaced
  if r.reachable || !unplaced.isEmpty then
    .error (.unfinished r.reachable unplaced)
  else if r.maxLocals < UInt16.size then
    .ok { maxLocals := UInt16.ofNat r.maxLocals
          entries := r.entries.toList
          ranges := r.ranges.toList }
  else
    .error (.localsOverflow r.maxLocals)

end Recorder

namespace Record

def freshLabel : Record Label :=
  modifyGet fun r => (⟨r.nextLabel⟩, { r with nextLabel := r.nextLabel + 1 })

def insn (i : Instruction) : Record Unit := modify (·.insn i)

def branch (b : Branch) : Record Unit := modify (·.branch b)

/-- Places a label here. The position is noted even when the label stands elsewhere
already, which is a fault. -/
def place (label : Label) : Record Unit := fun r =>
  let known := r.placed.contains label
  let r := { r with placed := r.placed.insert label r.position }
  if known then
    .error (.duplicateLabel label) r
  else
    .ok () { r with
      reachable := r.reachable || r.referenced.contains label
      entries := r.entries.push (.label label) }

def entry : Entry → Record Unit
  | .label l => place l
  | .insn i => insn i
  | .branch b => branch b

def entries (es : List Entry) : Record Unit := es.forM entry

end Record
end ClassAssembler
