import ModelCatalog.Catalog.Basic
import ModelCatalog.Catalog.Listing
import ModelCatalog.Descriptor.Basic
import ModelCatalog.Descriptor.Decoding
import ModelCatalog.Descriptor.Encoding
import ModelCatalog.Descriptor.Names
import ModelCatalog.Entries
import ModelCatalog.Failure
import ModelCatalog.Json.Basic
import ModelCatalog.Json.Fields
import ModelCatalog.Json.NumberText
import ModelCatalog.Json.Reader
import ModelCatalog.Json.Token
import ModelCatalog.Json.Writer
import ModelCatalog.Log
import ModelCatalog.Metrics
import ModelCatalog.Number.Decimal
import ModelCatalog.Number.Double
import ModelCatalog.Number.Word
import ModelCatalog.Schema
import ModelCatalog.Service.Authority
import ModelCatalog.Service.Handler
import ModelCatalog.Service.MediaType
import ModelCatalog.Service.Message
import ModelCatalog.Service.Route
import ModelCatalog.Service.Target
import ModelCatalog.Settings.Configuration
import ModelCatalog.Settings.Environment
import ModelCatalog.Text.Blank
import ModelCatalog.Text.Percent
import ModelCatalog.Text.Pieces
import ModelCatalog.Text.Utf8
import ModelCatalog.Validation.Fault
import ModelCatalog.Validation.Leaf
import ModelCatalog.Validation.Location
import ModelCatalog.Validation.Policy
import ModelCatalog.Validation.Request
import ModelCatalog.Validation.Submission
import ModelCatalog.Validation.Survey
import ModelCatalog.Violation
import ModelCatalog.Proofs.Entries
import ModelCatalog.Proofs.Number.Whole
import ModelCatalog.Proofs.Text.Utf8
import ModelCatalog.Proofs.Text.Pieces
import ModelCatalog.Proofs.Text.Trimming
import ModelCatalog.Proofs.Text.Percent
import ModelCatalog.Proofs.Descriptor.Names
import ModelCatalog.Proofs.Validation.Survey
import ModelCatalog.Proofs.Validation.Layout
import ModelCatalog.Proofs.Validation.Certainty
import ModelCatalog.Proofs.Validation.Soundness
import ModelCatalog.Proofs.Validation.Policies
import ModelCatalog.Proofs.Validation.Resubmission
import ModelCatalog.Proofs.Validation.Leaves
import ModelCatalog.Proofs.Validation.Places
import ModelCatalog.Proofs.Validation.Denotation
import ModelCatalog.Proofs.Validation.Refusals
import ModelCatalog.Proofs.Validation.Coverage
import ModelCatalog.Proofs.Catalog.Lookup
import ModelCatalog.Proofs.Catalog.History
import ModelCatalog.Proofs.Catalog.Journal
import ModelCatalog.Proofs.Service.Writes
import ModelCatalog.Proofs.Service.Runs
import ModelCatalog.Proofs.Service.Addresses
import ModelCatalog.Proofs.Validation.Merging
import ModelCatalog.Proofs.Validation.StatusMember
import ModelCatalog.Proofs.Service.Bodies
import ModelCatalog.Proofs.Service.Submissions
import ModelCatalog.Proofs.Violation
import ModelCatalog.Proofs.Service.Accounting
import ModelCatalog.Proofs.Service.Resubmission
import ModelCatalog.Proofs.Validation.Agreement
import ModelCatalog.Proofs.Number.Exact
import ModelCatalog.Proofs.Json.NumberText
import ModelCatalog.Proofs.Json.Approximation
import ModelCatalog.Proofs.Json.Lexing
import ModelCatalog.Proofs.Json.Reading
import ModelCatalog.Proofs.Json.Sizes
import ModelCatalog.Proofs.Descriptor.Encoding
import ModelCatalog.Proofs.Validation.CapacityOrder
import ModelCatalog.Proofs.Validation.Fieldwise
import ModelCatalog.Proofs.Descriptor.Decoding
import ModelCatalog.Proofs.Validation.WireFormat
import ModelCatalog.Proofs.Schema.Conformance
import ModelCatalog.Proofs.Schema.Answers
import ModelCatalog.Proofs.Service.PublishedSchema
import ModelCatalog.Proofs.Validation.Congruence
import ModelCatalog.Proofs.Validation.Strays
import ModelCatalog.Proofs.Validation.Inertness
import ModelCatalog.Proofs.Validation.Changes
import ModelCatalog.Proofs.Validation.Absence
import ModelCatalog.Proofs.Validation.OneUnknown
import ModelCatalog.Proofs.Validation.BareDescriptor
import ModelCatalog.Proofs.Validation.SubmittedStatus
import ModelCatalog.Proofs.Catalog.Partition
import ModelCatalog.Proofs.Validation.Regions
import ModelCatalog.Proofs.Validation.EnvironmentForms
import ModelCatalog.Proofs.Validation.Paths
import ModelCatalog.Proofs.Number.Rounding
import ModelCatalog.Proofs.Number.Nearest
import ModelCatalog.Proofs.Number.Numerals
import ModelCatalog.Proofs.Validation.Counts
import ModelCatalog.Proofs.Catalog.WantedTypes
import ModelCatalog.Proofs.Number.Word
import ModelCatalog.Proofs.Settings.Variables
import ModelCatalog.Proofs.Settings.Configuration
