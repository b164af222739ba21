import TemporalRequirements.Store.Grouping

/-!
# Reports

The structure report lists every requirement with its structure and propositions, or with the text
shown for it while it is not formal.  The group report lists the members of every group.
-/

namespace TemporalRequirements

def Entry.report (id : String) (e : Entry) : List String :=
  if e.isFormal then
    let onOneLine :=
      Text.replaceAll chunkSeparator.toList " ; ".toList e.decomposition.structureText.toList
    (id ++ ": " ++ String.ofList onOneLine) ::
      e.decomposition.propositions.entries.map fun (symbol, text) ↦
        "    " ++ symbol ++ " = " ++ text
  else [id ++ ": " ++ e.shown]

def Store.structureReport (s : Store) : List String :=
  s.entries.entries.flatMap fun (id, e) ↦ e.report id

def ChunkRef.print (ref : ChunkRef) : String := ref.requirement ++ "_" ++ toString ref.index

def groupReport (groups : List (List ChunkRef)) : List String :=
  groups.mapIdx fun n group ↦
    "group " ++ toString n ++ ": " ++ " ".intercalate (group.map ChunkRef.print)

end TemporalRequirements
