import TemporalRequirements.Store.Basic

/-!
# Verification groups

Properties that share a dependency token, directly or through others, are verified together.  A
group starts with the first property not yet in one and grows by passes over those that remain.
-/

namespace TemporalRequirements

/-- How properties are put together for verification. -/
inductive GroupingMode where
  /-- Groups that share no dependency token. -/
  | independent
  /-- One group: a model of the system is checked as a whole. -/
  | correctnessCheck
  deriving DecidableEq, Repr

namespace Store

/-- Whether a property shares a dependency token with a member of a group. -/
def isDependentOn (s : Store) (candidate : ChunkRef) (group : List ChunkRef) : Bool :=
  match s.chunkTokens? candidate with
  | none => false
  | some tokens =>
    group.any fun member ↦
      match s.chunkTokens? member with
      | none => false
      | some others => tokens.any fun t ↦ t ∈ others

/-- One pass over the remaining properties: the group with those that depend on it, and the rest. -/
def growOnce (s : Store) (group remaining : List ChunkRef) : List ChunkRef × List ChunkRef :=
  remaining.foldl
    (fun (group, rest) c ↦
      if s.isDependentOn c group then (group ++ [c], rest) else (group, rest ++ [c]))
    (group, [])

/-- Passes, at most `n`, until one adds nothing. -/
def grow (s : Store) : Nat → List ChunkRef → List ChunkRef → List ChunkRef × List ChunkRef
  | 0, group, remaining => (group, remaining)
  | n + 1, group, remaining =>
    let (grown, rest) := s.growOnce group remaining
    if rest.length = remaining.length then (grown, rest) else s.grow n grown rest

def partitionUpTo (s : Store) : Nat → List ChunkRef → List (List ChunkRef)
  | 0, _ => []
  | _ + 1, [] => []
  | n + 1, first :: others =>
    let (group, rest) := s.grow (others.length + 1) [first] others
    group :: s.partitionUpTo n rest

def groups (s : Store) (mode : GroupingMode) : List (List ChunkRef) :=
  let chunks := s.formalChunks
  match mode with
  | .independent => s.partitionUpTo chunks.length chunks
  | .correctnessCheck => if chunks.isEmpty then [] else [chunks]

end Store

end TemporalRequirements
