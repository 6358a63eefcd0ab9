import NeutronLang.Main
import NeutronLang.Proofs.BracedReading
import NeutronLang.Proofs.Completeness
import NeutronLang.Proofs.ErrorOrder
import NeutronLang.Proofs.FileReports
import NeutronLang.Proofs.FlatChecking
import NeutronLang.Proofs.Independence
import NeutronLang.Proofs.JoinedDocuments
import NeutronLang.Proofs.KeptStarts
import NeutronLang.Proofs.LatestWins
import NeutronLang.Proofs.Layout
import NeutronLang.Proofs.LexicalScoping
import NeutronLang.Proofs.MissingSemicolons
import NeutronLang.Proofs.OmittedStatements
import NeutronLang.Proofs.Positions
import NeutronLang.Proofs.Progress
import NeutronLang.Proofs.RecursiveChecks
import NeutronLang.Proofs.RecursiveRecords
import NeutronLang.Proofs.RenderedPrograms
import NeutronLang.Proofs.ScopeAgreement
import NeutronLang.Proofs.ScopeHistory
import NeutronLang.Proofs.ScopeRestoration
import NeutronLang.Proofs.SpanOrder
import NeutronLang.Proofs.StatementStarts
import NeutronLang.Proofs.Tokenization
import NeutronLang.Proofs.TreeShapes
import NeutronLang.Proofs.WrittenTokens
import NeutronLang.Session
