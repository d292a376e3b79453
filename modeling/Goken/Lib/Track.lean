import Mathlib.Data.List.Basic
import Mathlib.Order.Defs.LinearOrder
import Mathlib.Order.Lattice

/-! Tracks: lists of points whose keys rise. Looking for the first point that is not
before a key finds each point at its own key. -/

namespace Goken.Lib.Track

variable {P K : Type} [LinearOrder K] {key : P → K}

def Rising (key : P → K) (track : List P) : Prop := track.Pairwise fun a b => key a < key b

theorem find_at {track : List P} (rising : Rising key track) {p : P} (member : p ∈ track) :
    track.find? (fun q => decide (key p ≤ key q)) = some p := by
  induction track with
  | nil => cases member
  | cons q track ih =>
    have later := (List.pairwise_cons.mp rising).1
    rcases List.mem_cons.mp member with rfl | inside
    · simp
    · rw [List.find?_cons_of_neg]
      · exact ih rising.of_cons inside
      · simpa using later p inside

theorem append_rising {before after : List P} :
    Rising key (before ++ after) ↔
      Rising key before ∧ Rising key after ∧ ∀ p ∈ before, ∀ q ∈ after, key p < key q :=
  List.pairwise_append

/-- The last of the leading points that are before a key, or what was there at first. -/
def inForce {V : Type} (value : P → V) (passed : P → Bool) (start : V) (track : List P) : V :=
  ((track.takeWhile passed).map value).getLastD start

section InForce

variable {V : Type} {value : P → V} {passed : P → Bool} {start : V}

@[simp] theorem inForce_nil : inForce value passed start ([] : List P) = start := rfl

theorem inForce_passed {p : P} {track : List P} (holds : passed p = true) :
    inForce value passed start (p :: track) = inForce value passed (value p) track := by
  rw [inForce, List.takeWhile_cons_of_pos holds, List.map_cons, List.getLastD_cons]
  rfl

theorem inForce_stop {p : P} {track : List P} (stops : passed p = false) :
    inForce value passed start (p :: track) = start := by
  rw [inForce, List.takeWhile_cons_of_neg (by simp [stops])]
  rfl

theorem inForce_map {Q : Type} (f : Q → P) (track : List Q) :
    inForce value passed start (track.map f) = inForce (value ∘ f) (passed ∘ f) start track := by
  rw [inForce, inForce, List.takeWhile_map, List.map_map]

end InForce

end Goken.Lib.Track
