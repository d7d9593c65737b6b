import ServiceInjection.Main
import ServiceInjection.Proofs.Server.History
import ServiceInjection.Proofs.Refactor.Order
import ServiceInjection.Proofs.Outline.Enclosing
import ServiceInjection.Proofs.Source.WholeText
import ServiceInjection.Proofs.Source.CutPoints
import ServiceInjection.Proofs.Refactor.Marker
import ServiceInjection.Proofs.Refactor.Names
import ServiceInjection.Proofs.Refactor.TypeMeanings
import ServiceInjection.Proofs.Refactor.Checked
import ServiceInjection.Proofs.Wiring.DocComment
import ServiceInjection.Proofs.Wiring.PatchedBody
import ServiceInjection.Proofs.Wiring.RoundTrip
import ServiceInjection.Proofs.Refactor.TouchedCalls
import ServiceInjection.Proofs.Service.InsertionOrder
import ServiceInjection.Proofs.Outline.ImportText
