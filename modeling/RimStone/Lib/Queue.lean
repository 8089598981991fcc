import Mathlib.Data.List.Basic

/-!
# Queues that can be read again

A queue whose elements stay when they are read: `read` are the elements behind the
reading position and `unread` those ahead of it, both with the oldest first.
-/

namespace RimStone.Lib

structure Queue (α : Type*) where
  read : List α := []
  unread : List α := []
  deriving DecidableEq, Repr

namespace Queue

variable {α β : Type*} (q : Queue α)

def all : List α := q.read ++ q.unread

def store (a : α) : Queue α := { q with unread := q.unread ++ [a] }

/-- A new element is the first one, and all are ahead. -/
def push (a : α) : Queue α := { unread := a :: q.all }

/-- The oldest element that is ahead, if there is one. -/
def retrieve : Queue α × Option α :=
  match q.unread with
  | [] => (q, none)
  | a :: as => ({ read := q.read ++ [a], unread := as }, some a)

def rewind : Queue α := { unread := q.all }

def delete : Queue α := { unread := q.unread }

def map (f : α → β) : Queue β := { read := q.read.map f, unread := q.unread.map f }

end Queue

end RimStone.Lib
