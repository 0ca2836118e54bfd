import RpalLexer.Encoding.Encode
import RpalLexer.Main
import RpalLexer.Proofs.Conservation
import RpalLexer.Proofs.RenderedTokens
import RpalLexer.Proofs.LineCount
import RpalLexer.Proofs.CallSegment
import RpalLexer.Proofs.Simulation
import RpalLexer.Proofs.Session
import RpalLexer.Proofs.Strictness
import RpalLexer.Proofs.SupplyText
import RpalLexer.Proofs.CharBytes
import RpalLexer.Proofs.EncodedText
import RpalLexer.Proofs.Transport
import RpalLexer.Proofs.ReadErrorAsEnd
import RpalLexer.Proofs.ReadErrorPolicies
import RpalLexer.Proofs.CallInvariant
import RpalLexer.Proofs.ReaderLifetime
import RpalLexer.Proofs.LookaheadSlot
import RpalLexer.Proofs.Concatenation
import RpalLexer.Proofs.Interleaving
import RpalLexer.Proofs.Layout
import RpalLexer.Proofs.DecodeFailures
import RpalLexer.Proofs.ClosingQuote
import RpalLexer.Proofs.PullLoop
import RpalLexer.Proofs.DueFaults
import RpalLexer.Proofs.FailingClose
import RpalLexer.Proofs.EnvironmentOptions
import RpalLexer.Proofs.TextListing
import RpalLexer.Proofs.JsonRecords
import RpalLexer.Proofs.PrintedLines
import RpalLexer.Proofs.FileFaults
import RpalLexer.Proofs.GivenFlags
import RpalLexer.Proofs.RunOutcome
import RpalLexer.Proofs.JsonListing
