/-!
# Cursors

A cursor is a state with an operation that returns the next item, or nothing, and moves on.
-/

universe u v

namespace Cursor

variable {State : Type u} {Item : Type v}

/-- What the call number `n` returns. -/
def call (next : State → Option Item × State) : Nat → State → Option Item
  | 0, s => (next s).1
  | n + 1, s => call next n (next s).2

variable {next : State → Option Item × State} {R : State → List Item → Prop}

theorem call_eq_getElem? (head : ∀ {s xs}, R s xs → (next s).1 = xs.head?)
    (tail : ∀ {s xs}, R s xs → R (next s).2 xs.tail) {s : State} {xs : List Item}
    (h : R s xs) (n : Nat) : call next n s = xs[n]? := by
  induction n generalizing s xs with
  | zero => rw [call, head h, List.head?_eq_getElem?]
  | succ n ih => rw [call, ih (tail h), List.getElem?_tail]

end Cursor
