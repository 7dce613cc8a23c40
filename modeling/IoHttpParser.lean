import IoHttpParser.Model.Parser
import IoHttpParser.Model.Semantics
import IoHttpParser.Model.BodyDecoder
import IoHttpParser.Proofs.ChunkedBody
import IoHttpParser.Proofs.Pipeline
import IoHttpParser.Proofs.SplitFields
import IoHttpParser.Proofs.Incremental
import IoHttpParser.Proofs.Finality
import IoHttpParser.Proofs.RequestGrammar
import IoHttpParser.Proofs.ResponseGrammar
import IoHttpParser.Proofs.PolicyOrder
import IoHttpParser.Proofs.TrailerOwnership
import IoHttpParser.Proofs.InPlace
import IoHttpParser.Proofs.FieldOrder
import IoHttpParser.Proofs.Persistence
import IoHttpParser.Proofs.Rejection
import IoHttpParser.Proofs.Folding
import IoHttpParser.Proofs.SpanOrder
import IoHttpParser.Proofs.ChunkReports
import IoHttpParser.Proofs.HeadBounds
import IoHttpParser.Proofs.Upgrade
import IoHttpParser.Proofs.Scanner
import IoHttpParser.Proofs.ContentLength
import IoHttpParser.Proofs.FieldPointers
import IoHttpParser.Proofs.Deliveries
import IoHttpParser.Proofs.PolicyConnection
import IoHttpParser.Proofs.WholeBuffer
import IoHttpParser.Proofs.PolicyGrammar
import IoHttpParser.Proofs.ConnectionBounds
import IoHttpParser.Proofs.Idempotence
import IoHttpParser.Proofs.EntryPoints
import IoHttpParser.Proofs.DecoderValues
import IoHttpParser.Proofs.PerfRuns
import IoHttpParser.Proofs.ScannerDispatch
