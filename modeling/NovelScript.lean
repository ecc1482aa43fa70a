import NovelScript.Command.Level
import NovelScript.Main
import NovelScript.Proofs.Accesses
import NovelScript.Proofs.Completion
import NovelScript.Proofs.Tracking
import NovelScript.Session
import NovelScript.Tree.Equality
import NovelScript.Proofs.Spelling
import NovelScript.Proofs.Fragments
import NovelScript.Proofs.Alike
import NovelScript.Proofs.Canonical
import NovelScript.Proofs.Expressions
import NovelScript.Proofs.Phrases
import NovelScript.Proofs.Images
import NovelScript.Proofs.Speech
import NovelScript.Proofs.Headings
import NovelScript.Proofs.Rereading
import NovelScript.Proofs.Echo
import NovelScript.Proofs.Moves
import NovelScript.Proofs.Restoring
import NovelScript.Proofs.Prefixes
import NovelScript.Proofs.Indentation
import NovelScript.Proofs.Cutting
import NovelScript.Proofs.Comments
import NovelScript.Proofs.Reindenting
import NovelScript.Proofs.Embedding
import NovelScript.Proofs.LineBreaks
import NovelScript.Proofs.Pointing
import NovelScript.Proofs.Faithful
import NovelScript.Proofs.Encoding
import NovelScript.Proofs.Groups
import NovelScript.Proofs.Survivors
import NovelScript.Proofs.Coverage
import NovelScript.Proofs.SpokenForm
import NovelScript.Proofs.Delimiters
import NovelScript.Proofs.BreakingOff
import NovelScript.Proofs.Outlines
import NovelScript.Proofs.Excerpts
import NovelScript.Proofs.LabelNames
import NovelScript.Proofs.Settings
import NovelScript.Proofs.Taking
import NovelScript.Proofs.Verdicts
import NovelScript.Proofs.Discovering
import NovelScript.Proofs.LiteralEnds
import NovelScript.Proofs.Numbers
import NovelScript.Proofs.Covers
