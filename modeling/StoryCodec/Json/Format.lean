import StoryCodec.Json.Basic

namespace StoryCodec

/-- A reader of JSON texts and the writers of the two layouts a text may have. -/
structure JsonFormat where
  read? : String → Option Json
  compact : Json → String
  indented : Json → String

def JsonFormat.write (format : JsonFormat) (onOneLine : Bool) (token : Json) : String :=
  if onOneLine then format.compact token else format.indented token

/-- How deep arrays and records may be nested in a text that is read. -/
def Json.maxLevels : Nat := 127

end StoryCodec
