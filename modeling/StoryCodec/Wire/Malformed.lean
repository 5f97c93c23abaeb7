import StoryCodec.Json.Basic
import StoryCodec.Story.Value

namespace StoryCodec

inductive Reason
  | integerOutOfRange
  | unrecognisedString
  | unsupportedScalar
  | nullContent
  | notString (key : String)
  | notInteger (key : String)
  | outOfRange (key : String)
  | severalDivertKeys
  | negativeArguments
  | unrecognisedObject
  | notCountFlags
  | notCount
  | notDocument
  | noRoot
deriving DecidableEq

def Reason.text : Reason → String
  | integerOutOfRange => "integer out of range"
  | unrecognisedString => "unrecognised string"
  | unsupportedScalar => "unsupported scalar"
  | nullContent => "null where content is required"
  | notString key => "\"" ++ key ++ "\" must be a string"
  | notInteger key => "\"" ++ key ++ "\" must be an integer"
  | outOfRange key => "\"" ++ key ++ "\" is out of range"
  | severalDivertKeys => "more than one divert key"
  | negativeArguments => "negative \"exArgs\""
  | unrecognisedObject => "unrecognised object"
  | notCountFlags => "\"#f\" must be a non-negative integer"
  | notCount => "count must be an integer"
  | notDocument => "story document must be an object or array"
  | noRoot => "story document has no \"root\" array"

/-- A token that cannot be decoded. It is the one at fault, which may stand deep inside the token
that was given. -/
structure Malformed where
  token : Json
  reason : Reason

def Malformed.text (print : Json → String) (fault : Malformed) : String :=
  "failed to convert token to runtime object (" ++ fault.reason.text ++ "): " ++ print fault.token

structure NonFinite where
  number : Binary64
deriving DecidableEq

def NonFinite.message (fault : NonFinite) : String :=
  "cannot encode non-finite number " ++ fault.number.display

end StoryCodec
