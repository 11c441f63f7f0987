import GoTrees.Yaml.Basic

/-!
# Tokens

A document is a list of tokens. Blocks, which are told apart by indentation alone, have tokens for their
starts and ends, and a key has a token in front of it, so that nothing depends on columns any more.
-/

namespace GoTrees.Yaml

/-- The smallest units of a document. -/
inductive Token where
  | directive
  | documentStart
  | documentEnd
  | blockSequenceStart
  | blockMappingStart
  | blockEnd
  | flowSequenceStart
  | flowSequenceEnd
  | flowMappingStart
  | flowMappingEnd
  | blockEntry
  | flowEntry
  | key
  | value
  | alias (name : String)
  | anchor (name : String)
  | tag (tag : Tag)
  | scalar (style : Style) (text : String)
  deriving DecidableEq, Repr

end GoTrees.Yaml
