/-
A bounded cache of what a function builds, the entry used longest ago first.

A failure is not kept.  A lookup gives what the builder gives.
-/
import Packets.Lib.Dict

universe u v

namespace Dict

variable {K : Type u} {V : Type v}

/-- Take out the entries that were inserted first. -/
def dropFirst (d : Dict K V) (n : Nat) : Dict K V :=
  ⟨d.entries.drop n, d.nodup.sublist ((List.drop_sublist n d.entries).map Prod.fst)⟩

theorem get?_of_dropFirst [DecidableEq K] {d : Dict K V} {n : Nat} {k : K} {v : V}
    (h : (d.dropFirst n).get? k = some v) : d.get? k = some v := by
  rw [← mem_entries_iff] at h ⊢
  exact List.mem_of_mem_drop h

end Dict

structure Memo (K : Type u) (V : Type v) where
  entries : Dict K V
  limit : Nat

namespace Memo

variable {K : Type u} {V : Type v} [DecidableEq K]

def empty (limit : Nat) : Memo K V := ⟨Dict.empty, limit⟩

/-- Drop what was used longest ago, down to the limit. -/
def trim (m : Memo K V) : Memo K V :=
  { m with entries := m.entries.dropFirst (m.entries.size - m.limit) }

/-- Drop the entry used longest ago. -/
def evict (m : Memo K V) : Memo K V := { m with entries := m.entries.dropFirst 1 }

def clear (m : Memo K V) : Memo K V := { m with entries := Dict.empty }

def setLimit (m : Memo K V) (limit : Nat) : Memo K V := trim { m with limit := limit }

/-- Look a key up, and build and keep its value where it is not there. -/
def fetch (build : K → Option V) (m : Memo K V) (k : K) : Option (V × Memo K V) :=
  match m.entries.get? k with
  | some v => some (v, { m with entries := (m.entries.erase k).set k v })
  | none => (build k).map fun v => (v, trim { m with entries := m.entries.set k v })

/-- Every entry is what the builder makes of its key. -/
def Sound (build : K → Option V) (m : Memo K V) : Prop :=
  ∀ k v, m.entries.get? k = some v → build k = some v

variable {build : K → Option V} {m : Memo K V}

theorem sound_empty (limit : Nat) : (empty limit : Memo K V).Sound build := by
  intro k v h
  cases h

theorem Sound.dropFirst (h : m.Sound build) (n : Nat) :
    Sound build { m with entries := m.entries.dropFirst n } :=
  fun k v hv => h k v (Dict.get?_of_dropFirst hv)

theorem Sound.trim (h : m.Sound build) : m.trim.Sound build := h.dropFirst _

theorem Sound.evict (h : m.Sound build) : m.evict.Sound build := h.dropFirst 1

theorem Sound.clear : m.clear.Sound build := sound_empty m.limit

theorem Sound.setLimit (h : m.Sound build) (limit : Nat) : (m.setLimit limit).Sound build :=
  Sound.trim (m := { m with limit := limit }) h

theorem Sound.set (h : m.Sound build) {k : K} {v : V} (hv : build k = some v) :
    Sound build { m with entries := m.entries.set k v } := by
  intro k' v' hget
  rw [Dict.get?_set] at hget
  split at hget
  next hk =>
    cases hget
    rw [hk, hv]
  next => exact h k' v' hget

/-- A lookup gives what the builder gives, and leaves a cache that does so too. -/
theorem Sound.fetch (h : m.Sound build) (k : K) :
    match build k with
    | none => m.fetch build k = none
    | some v => ∃ m', m.fetch build k = some (v, m') ∧ m'.Sound build := by
  unfold Memo.fetch
  cases hget : m.entries.get? k with
  | some v =>
    rw [h k v hget]
    refine ⟨_, rfl, ?_⟩
    have herase : Sound build { m with entries := m.entries.erase k } := by
      intro k' v' hv'
      rw [Dict.get?_erase] at hv'
      split at hv'
      · cases hv'
      · exact h k' v' hv'
    exact herase.set (h k v hget)
  | none =>
    cases hbuild : build k with
    | none => rfl
    | some v => exact ⟨_, rfl, (h.set hbuild).trim⟩

end Memo
