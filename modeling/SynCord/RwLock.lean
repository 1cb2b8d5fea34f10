import SynCord.Reach

/-!
# SynCord.RwLock

What a lock for readers and writers is for. It has any number of readers or one writer; a reader is
let in while there is no writer, a writer while there is nobody.
-/

namespace SynCord

/-- `ρ` tells reads apart, `τ` writers. -/
structure RwLock (ρ τ : Type) where
  readers : List ρ
  writer : Option τ

namespace RwLock

inductive Op (ρ τ : Type) where
  | acquireRead (r : ρ)
  | releaseRead (r : ρ)
  | acquireWrite (t : τ)
  | releaseWrite (t : τ)

variable {ρ τ : Type} [DecidableEq ρ] [DecidableEq τ]

def free : RwLock ρ τ := ⟨[], none⟩

def step (s : RwLock ρ τ) : Op ρ τ → Option (RwLock ρ τ)
  | .acquireRead r => if s.writer = none then some ⟨r :: s.readers, none⟩ else none
  | .releaseRead r => if r ∈ s.readers then some { s with readers := s.readers.erase r } else none
  | .acquireWrite t =>
    if s.writer = none ∧ s.readers = [] then some { s with writer := some t } else none
  | .releaseWrite t => if s.writer = some t then some { s with writer := none } else none

end RwLock
end SynCord
