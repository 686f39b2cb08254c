import WordMachines.Main
import WordMachines.Proofs.Dfa.Runs
import WordMachines.Proofs.Turing.Rules
import WordMachines.Proofs.Compile.Rules
import WordMachines.Proofs.Turing.Steps
import WordMachines.Proofs.Turing.Bounds
import WordMachines.Proofs.Turing.Configuration
import WordMachines.Proofs.Compile.Quotient
import WordMachines.Proofs.Compile.Simulation
import WordMachines.Proofs.Walk.Rank
import WordMachines.Proofs.Walk.Discovery
import WordMachines.Proofs.Walk.Rounds
import WordMachines.Proofs.Walk.Shortest
import WordMachines.Proofs.Walk.Emptiness
import WordMachines.Proofs.Dfa.ForeignWords
import WordMachines.Proofs.Compile.Emptiness
import WordMachines.Proofs.Turing.Calls
import WordMachines.Proofs.Dfa.Validation
import WordMachines.Proofs.Dfa.DeclaredPart
import WordMachines.Proofs.Json.RoundTrip
import WordMachines.Proofs.Json.Identifier
import WordMachines.Proofs.Dfa.Document
import WordMachines.Proofs.Turing.Renaming
import WordMachines.Proofs.Dfa.Renaming
import WordMachines.Proofs.Walk.Renaming
import WordMachines.Proofs.Turing.Trace
import WordMachines.Proofs.Turing.Window
import WordMachines.Proofs.Compile.Renaming
import WordMachines.Proofs.Compile.Trace
import WordMachines.Proofs.Compile.DeclarationOrder
import WordMachines.Proofs.Compile.Shape
import WordMachines.Proofs.Compile.Refusals
import WordMachines.Proofs.CommandLine.Agreement
import WordMachines.Proofs.CommandLine.Blocks
import WordMachines.Proofs.Turing.LivePart
import WordMachines.Proofs.Turing.Declarations
import WordMachines.Proofs.Turing.RuleCount
import WordMachines.Proofs.Turing.Listing
import WordMachines.Proofs.Turing.Extensionality
import WordMachines.Proofs.Walk.Reachable
import WordMachines.Proofs.Walk.Pointers
import WordMachines.Proofs.Turing.Safety
import WordMachines.Proofs.Json.Covers
import WordMachines.Proofs.Json.Labels
import WordMachines.Proofs.Dfa.LabelledDocument
import WordMachines.Proofs.Json.Grammar
import WordMachines.Proofs.Json.Numeral
import WordMachines.Proofs.Json.Locality
import WordMachines.Proofs.Json.Tokens
import WordMachines.Proofs.Json.Members
import WordMachines.Proofs.Json.Skipping
import WordMachines.Proofs.Dfa.Draft
import WordMachines.Proofs.Dfa.Given
import WordMachines.Proofs.Dfa.Presence
import WordMachines.Proofs.FinMap
import WordMachines.Proofs.Enumeration
import WordMachines.Proofs.Dfa.Table
import WordMachines.Proofs.Dfa.Equality
import WordMachines.Proofs.Json.Soundness.Tokens
import WordMachines.Proofs.Json.Soundness.Skipping
import WordMachines.Proofs.Json.Soundness.Readers
import WordMachines.Proofs.Json.Decoding.Basic
import WordMachines.Proofs.Json.Decoding.Identifiers
import WordMachines.Proofs.Json.Decoding.Members
import WordMachines.Proofs.Dfa.Decoding
import WordMachines.Proofs.Dfa.Accepted
import WordMachines.Proofs.Dfa.Related
import WordMachines.Proofs.Dfa.LabelForms
import WordMachines.Proofs.Dfa.RepeatedKeys
import WordMachines.Proofs.Dfa.Edits
