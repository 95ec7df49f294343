import ScriptLexer.Document
import ScriptLexer.Cursor.Lemmas
import ScriptLexer.LineIndex.Lemmas
import ScriptLexer.Main
import ScriptLexer.Proofs.LineCounting
import ScriptLexer.Proofs.MalformedTokens
import ScriptLexer.Proofs.TokenTiling
import ScriptLexer.Proofs.JoinedScans
import ScriptLexer.Proofs.LineLocations
import ScriptLexer.Proofs.NearestBoundaries
import ScriptLexer.Proofs.PassageReading
import ScriptLexer.Proofs.WindowCuts
import ScriptLexer.Proofs.WindowPassages
import ScriptLexer.Proofs.LineStarts
import ScriptLexer.Proofs.WindowBounds
import ScriptLexer.Proofs.LineBreaks
import ScriptLexer.Proofs.LabelLocations
import ScriptLexer.Proofs.RespacedTokens
import ScriptLexer.Proofs.SettledTokens
import ScriptLexer.Proofs.GuardedSearches
import ScriptLexer.Proofs.LexemeBytes
import ScriptLexer.Proofs.GuardedReading
import ScriptLexer.Proofs.ByteWalks
import ScriptLexer.Proofs.ListedTokens
import ScriptLexer.Proofs.RunAgreement
import ScriptLexer.Proofs.CounterBounds
import ScriptLexer.Proofs.CharacterForms
import ScriptLexer.Proofs.LoadedDocuments
import ScriptLexer.Proofs.JsonGrammar
import ScriptLexer.Proofs.JsonUnambiguity
import ScriptLexer.Proofs.JsonEncoding
import ScriptLexer.Proofs.JsonListing
import ScriptLexer.Proofs.LineLookup
import ScriptLexer.Proofs.MissingReports
import ScriptLexer.Proofs.SortedDiagnostics
import ScriptLexer.Proofs.LineEndings
import ScriptLexer.Proofs.ConvertedScans
