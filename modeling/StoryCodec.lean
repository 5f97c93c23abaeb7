import StoryCodec.Main
import StoryCodec.Story.Equality
import StoryCodec.Proofs.Depth
import StoryCodec.Proofs.PathText
import StoryCodec.Proofs.Arrays
import StoryCodec.Proofs.Terminators
import StoryCodec.Proofs.Building
import StoryCodec.Proofs.Rereading
import StoryCodec.Proofs.Leaves
import StoryCodec.Proofs.Decoded
import StoryCodec.Proofs.Equality
import StoryCodec.Proofs.RoundTrip
import StoryCodec.Proofs.Grammar
import StoryCodec.Proofs.Canonical
import StoryCodec.Proofs.Shape
import StoryCodec.Proofs.Faults
import StoryCodec.Proofs.Reordering
import StoryCodec.Proofs.Rounding
import StoryCodec.Proofs.Integers
import StoryCodec.Proofs.IntegerFields
import StoryCodec.Proofs.NumberText
import StoryCodec.Proofs.JsonText
import StoryCodec.Proofs.FormatLaws
import StoryCodec.Proofs.StandardFormat
import StoryCodec.Proofs.Nesting
import StoryCodec.Proofs.Reformat
import StoryCodec.Proofs.Mnemonics
import StoryCodec.Proofs.MnemonicSlots
import StoryCodec.Proofs.Editing
import StoryCodec.Proofs.Climbing
import StoryCodec.Proofs.Collections
import StoryCodec.Proofs.Equivalence
import StoryCodec.Proofs.Positions
import StoryCodec.Proofs.Summaries
import StoryCodec.Proofs.NonFinite
import StoryCodec.Proofs.PathSteps
import StoryCodec.Proofs.ArrayFaults
import StoryCodec.Proofs.Priority
import StoryCodec.Proofs.DivertCalls
import StoryCodec.Proofs.NamedHistory
import StoryCodec.Proofs.Nearest
import StoryCodec.Proofs.NumericText
import StoryCodec.Proofs.WordBounds
