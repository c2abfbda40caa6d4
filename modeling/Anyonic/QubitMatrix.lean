import Anyonic.Amplitude

/-!
# Matrices of single-qubit operators

Two-by-two complex matrices, the discrepancy that the braid search minimises, and the fingerprint
by which it recognises operators that differ only in a global phase.
-/

namespace Anyonic

/-- A two-by-two matrix with the rows `a b` and `c d`. -/
structure QubitMatrix (α : Type) where
  a : Amplitude α
  b : Amplitude α
  c : Amplitude α
  d : Amplitude α
deriving BEq

namespace QubitMatrix

variable {α : Type} [Scalar α]

/-- The entries, row by row. -/
def entries (u : QubitMatrix α) : List (Amplitude α) := [u.a, u.b, u.c, u.d]

/-- The diagonal matrix with the given entries. -/
def diagonal (first second : Amplitude α) : QubitMatrix α :=
  ⟨first, .zero, .zero, second⟩

/-- The identity. -/
def identity : QubitMatrix α := diagonal .one .one

instance : Mul (QubitMatrix α) where
  mul u v :=
    ⟨u.a * v.a + u.b * v.c, u.a * v.b + u.b * v.d, u.c * v.a + u.d * v.c, u.c * v.b + u.d * v.d⟩

/-- The conjugate transpose. -/
def dagger (u : QubitMatrix α) : QubitMatrix α :=
  ⟨u.a.conj, u.c.conj, u.b.conj, u.d.conj⟩

/-- The sum of the diagonal entries. -/
def trace (u : QubitMatrix α) : Amplitude α := u.a + u.d

/-- How far two unitary matrices are from agreeing up to a global phase: `1 - |tr (u† v)| / 2`. -/
def discrepancy (u v : QubitMatrix α) : α := 1.0 - (u.dagger * v).trace.norm / 2.0

/-- Discrepancies below this are rounding noise. -/
def discrepancyFloor : α := 1e-12

/-- The discrepancy, with noise and undefined values counted as agreement. -/
def distance (u v : QubitMatrix α) : α :=
  let value := u.discrepancy v
  if discrepancyFloor ≤ value then value else 0.0

/-- Entries closer than this count as equal. -/
def entryTolerance : α := 1e-10

/-- Whether the matrix is a multiple of the identity, up to rounding. -/
def isIdentity (u : QubitMatrix α) : Bool :=
  if entryTolerance < u.b.norm || entryTolerance < u.c.norm then false
  else (u.a - u.d).norm < entryTolerance

/-- Entries no larger than this do not fix a phase. -/
def phaseFloor : α := 1e-6

/-- The resolution of a fingerprint: entries are told apart in units of its inverse. -/
def keyScale : α := 1e8

/-- The phase that turns the first entry of notable size onto the positive real axis. -/
def phaseReference (u : QubitMatrix α) : Amplitude α :=
  match u.entries.find? fun z => phaseFloor < z.norm with
  | some z => z.conj.divReal z.norm
  | none => .one

/--
A fingerprint of the matrix up to global phase: the entries after the phase has been fixed, in
units of `1 / keyScale`, real and imaginary part by turns.
-/
def phaseKey (u : QubitMatrix α) : List Int :=
  let reference := u.phaseReference
  u.entries.flatMap fun z =>
    let w := z * reference
    [Scalar.nearest (w.re * keyScale), Scalar.nearest (w.im * keyScale)]

end QubitMatrix

end Anyonic
