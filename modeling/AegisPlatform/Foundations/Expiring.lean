import Mathlib.Algebra.Order.Group.Defs
import Mathlib.Logic.Function.Basic

/-! # Maps whose entries expire

A map from keys to values, each with the moment from which it is no longer found. An operation acts
on one key, and what is found under the others stays as it was.
-/

namespace AegisPlatform.Foundations
set_option autoImplicit false
set_option maxHeartbeats 250000

structure Expiring (V T : Type) where
  value : V
  expiresAt : Option T := none

abbrev ExpiringMap (K V T : Type) := K → Option (Expiring V T)

namespace ExpiringMap
variable {K V T : Type} [LinearOrder T]

def alive (now : T) (entry : Expiring V T) : Bool :=
  entry.expiresAt.all fun time => decide (now < time)

/-- What is found under the key: nothing, once the time of the entry has come. -/
def find (now : T) (m : ExpiringMap K V T) (key : K) : Option (Expiring V T) :=
  (m key).filter (alive now)

section
variable [DecidableEq K]

def put (m : ExpiringMap K V T) (key : K) (entry : Expiring V T) : ExpiringMap K V T :=
  Function.update m key (some entry)

def erase (m : ExpiringMap K V T) (key : K) : ExpiringMap K V T := Function.update m key none

/-- Another value under the key, the time of the entry as it was. -/
def write (now : T) (m : ExpiringMap K V T) (key : K) (value : V) : ExpiringMap K V T :=
  match find now m key with
  | none => put m key { value := value }
  | some entry => put m key { entry with value := value }

/-- Another time for the entry under the key, if one is found. -/
def touch (now : T) (m : ExpiringMap K V T) (key : K) (time : T) : ExpiringMap K V T :=
  match find now m key with
  | none => erase m key
  | some entry => put m key { entry with expiresAt := some time }

variable {m : ExpiringMap K V T} {now : T} {key other : K}

omit [LinearOrder T] in
@[simp] theorem put_self (entry : Expiring V T) : put m key entry key = some entry :=
  Function.update_self ..

omit [LinearOrder T] in
theorem put_of_ne (h : other ≠ key) (entry : Expiring V T) : put m key entry other = m other :=
  Function.update_of_ne h ..

omit [LinearOrder T] in
@[simp] theorem erase_self : erase m key key = none := Function.update_self ..

omit [LinearOrder T] in
theorem erase_of_ne (h : other ≠ key) : erase m key other = m other := Function.update_of_ne h ..

theorem write_of_ne (h : other ≠ key) (value : V) : write now m key value other = m other := by
  unfold write
  cases find now m key with
  | none => exact put_of_ne h _
  | some entry => exact put_of_ne h _

theorem touch_of_ne (h : other ≠ key) (time : T) : touch now m key time other = m other := by
  unfold touch
  cases find now m key with
  | none => exact erase_of_ne h
  | some entry => exact put_of_ne h _

theorem write_self (value : V) : write now m key value key =
    some { value := value, expiresAt := (find now m key).bind Expiring.expiresAt } := by
  unfold write
  cases find now m key with
  | none => exact put_self _
  | some entry => exact put_self _

theorem touch_self (time : T) : touch now m key time key =
    (find now m key).map fun entry => { entry with expiresAt := some time } := by
  unfold touch
  cases find now m key with
  | none => exact erase_self
  | some entry => exact put_self _

end

variable {m : ExpiringMap K V T} {now : T} {key : K}

theorem find_some {entry : Expiring V T} (h : find now m key = some entry) :
    m key = some entry ∧ alive now entry = true := by
  unfold find at h
  exact Option.filter_eq_some_iff.mp h

end ExpiringMap

end AegisPlatform.Foundations
