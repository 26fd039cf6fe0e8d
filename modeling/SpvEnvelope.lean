import SpvEnvelope.Bytes.VarInt
import SpvEnvelope.Certify.ChainView
import SpvEnvelope.Hash.Digest
import SpvEnvelope.Json.Certification
import SpvEnvelope.Json.Proof
import SpvEnvelope.Merkle.Memory
import SpvEnvelope.Proofs.Binding
import SpvEnvelope.Proofs.Category
import SpvEnvelope.Proofs.Compound
import SpvEnvelope.Proofs.Cursor
import SpvEnvelope.Proofs.DigestText
import SpvEnvelope.Proofs.Extension
import SpvEnvelope.Proofs.Grounding
import SpvEnvelope.Proofs.HeaderRoots
import SpvEnvelope.Proofs.JsonForm
import SpvEnvelope.Proofs.Listing
import SpvEnvelope.Proofs.Lookups
import SpvEnvelope.Proofs.Pairs
import SpvEnvelope.Proofs.Placement
import SpvEnvelope.Proofs.Position
import SpvEnvelope.Proofs.Questions
import SpvEnvelope.Proofs.Rearrangement
import SpvEnvelope.Proofs.Refusal
import SpvEnvelope.Proofs.RoundTrip
import SpvEnvelope.Proofs.Shape
import SpvEnvelope.Proofs.Shortest
import SpvEnvelope.Proofs.Turns
import SpvEnvelope.Proofs.Writers
