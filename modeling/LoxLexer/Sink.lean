import LoxLexer.Fault

namespace LoxLexer

structure Sink where
  written : ByteArray := .empty
  capacity : Option Nat := none
  flushFault : Option IoFault := none

namespace Sink

def room (s : Sink) (size : Nat) : Nat :=
  match s.capacity with
  | none => size
  | some capacity => min size (capacity - s.written.size)

def write (s : Sink) (text : String) : Sink × Except IoFault Unit :=
  let bytes := text.toUTF8
  let kept := s.room bytes.size
  ({ s with written := s.written ++ bytes.extract 0 kept },
    if kept = bytes.size then .ok () else .error .sinkFull)

def flush (s : Sink) : Except IoFault Unit :=
  match s.flushFault with
  | none => .ok ()
  | some fault => .error fault

def since (s before : Sink) : ByteArray := s.written.extract before.written.size s.written.size

def emptied (s : Sink) : Sink :=
  { s with written := .empty, capacity := s.capacity.map (· - s.written.size) }

theorem room_le (s : Sink) (size : Nat) : s.room size ≤ size := by
  rw [room]
  split
  · exact Nat.le_refl _
  · exact Nat.min_le_left ..

@[simp] theorem room_of_unlimited {s : Sink} (h : s.capacity = none) (size : Nat) :
    s.room size = size := by
  simp [room, h]

@[simp] theorem capacity_write (s : Sink) (text : String) :
    (s.write text).1.capacity = s.capacity := rfl

end Sink

end LoxLexer
