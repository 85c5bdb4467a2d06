import ChatWire.Model.Catalog
import ChatWire.Session
import ChatWire.Message.Saved
import ChatWire.Proofs.Lists
import ChatWire.Proofs.Table
import ChatWire.Proofs.Text.Base64
import ChatWire.Proofs.Text.Utf8
import ChatWire.Proofs.Decimal.Range
import ChatWire.Proofs.Decimal.Shortest
import ChatWire.Proofs.Decimal.Layout
import ChatWire.Proofs.Json.Members
import ChatWire.Proofs.Json.Reprint
import ChatWire.Proofs.Message.Counts
import ChatWire.Proofs.Message.Media
import ChatWire.Proofs.Message.ResultNames
import ChatWire.Proofs.Message.Saved
import ChatWire.Proofs.Dialect.Basic
import ChatWire.Proofs.Dialect.AnthropicRoundTrip
import ChatWire.Proofs.Dialect.GeminiParts
import ChatWire.Proofs.Dialect.GeminiSignatures
import ChatWire.Proofs.Dialect.GeminiRoundTrip
import ChatWire.Proofs.Dialect.GeminiFiling
import ChatWire.Proofs.Dialect.GeminiRewriting
import ChatWire.Proofs.Dialect.OpenAIRoundTrip
import ChatWire.Proofs.Dialect.OpenAIRewriting
import ChatWire.Proofs.Dialect.OllamaRoundTrip
import ChatWire.Proofs.Dialect.Malformed
import ChatWire.Proofs.Dialect.Replies
import ChatWire.Proofs.Dialect.Switching
import ChatWire.Proofs.Stream.Slots
import ChatWire.Proofs.Stream.Drafts
import ChatWire.Proofs.Stream.Completion
import ChatWire.Proofs.Stream.Phases
import ChatWire.Proofs.Stream.Stopping
import ChatWire.Proofs.Stream.Steps
import ChatWire.Proofs.Stream.Success
import ChatWire.Proofs.Stream.Ledger
import ChatWire.Proofs.Stream.GeminiLedger
import ChatWire.Proofs.Stream.OpenAILedger
import ChatWire.Proofs.Stream.OllamaLedger
import ChatWire.Proofs.Stream.Translations
import ChatWire.Proofs.Stream.Truncation
import ChatWire.Proofs.Stream.Chunks
import ChatWire.Proofs.Stream.Rendering
import ChatWire.Proofs.Stream.LastLine
import ChatWire.Proofs.Agreement.Basic
import ChatWire.Proofs.Agreement.Blocks
import ChatWire.Proofs.Agreement.AnthropicEvents
import ChatWire.Proofs.Agreement.Anthropic
import ChatWire.Proofs.Agreement.OpenAIChunks
import ChatWire.Proofs.Agreement.OpenAI
import ChatWire.Proofs.Agreement.OpenAIPieces
import ChatWire.Proofs.Agreement.OpenAICalls
import ChatWire.Proofs.Agreement.Gemini
import ChatWire.Proofs.Agreement.GeminiLandings
import ChatWire.Proofs.Agreement.GeminiStreams
import ChatWire.Proofs.Agreement.GeminiReplies
import ChatWire.Proofs.Agreement.Ollama
import ChatWire.Proofs.Agreement.StopReasons
import ChatWire.Proofs.Agreement.CacheCounts
import ChatWire.Proofs.Agreement.Failures
import ChatWire.Proofs.Agreement.UsageRecords
import ChatWire.Proofs.Stream.FailedChunks
import ChatWire.Proofs.Model.Names
import ChatWire.Proofs.Session.Recording
import ChatWire.Proofs.Session.Outbound
import ChatWire.Proofs.Session.Entries
import ChatWire.Proofs.Session.UnmatchedResults
import ChatWire.Proofs.Session.Accounting
import ChatWire.Proofs.Session.Resending
import ChatWire.Proofs.Session.TokenSums
