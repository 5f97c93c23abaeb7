import StoryCodec.Json.Reading
import StoryCodec.Json.Writing

namespace StoryCodec

/-- The format with the reader and the writers that are given here. -/
def JsonFormat.standard : JsonFormat where
  read? := Json.read?
  compact := Json.compact
  indented token := token.write .indented

end StoryCodec
