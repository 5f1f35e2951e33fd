import FieldMask.Error
import FieldMask.Json.Basic
import FieldMask.Json.Document
import FieldMask.Json.Token
import FieldMask.NameSelection.Algebra
import FieldMask.NameSelection.Basic
import FieldMask.NameSelection.Parser
import FieldMask.NameSelection.Printer
import FieldMask.Number.Basic
import FieldMask.Number.Double
import FieldMask.Number.Literal
import FieldMask.Number.Shortest
import FieldMask.OrderedMap.Basic
import FieldMask.OrderedMap.Lemmas
import FieldMask.Path.Basic
import FieldMask.Path.Segments
import FieldMask.Path.Values
import FieldMask.Projection
import FieldMask.Proofs.BraceScan
import FieldMask.Proofs.DataOrder
import FieldMask.Proofs.ExpressionRoundTrip
import FieldMask.Proofs.GenericData
import FieldMask.Proofs.ListReading
import FieldMask.Proofs.MapOfList
import FieldMask.Proofs.ProjectionMonotone
import FieldMask.Proofs.ProjectionTotal
import FieldMask.Proofs.RecordRoundTrip
import FieldMask.Proofs.SchemaInvariant
import FieldMask.Proofs.SelectionInvariant
import FieldMask.Proofs.Trimming
import FieldMask.Proofs.ValueTyping
import FieldMask.Query
import FieldMask.RecordSelection.Algebra
import FieldMask.RecordSelection.Basic
import FieldMask.RecordSelection.Binding
import FieldMask.RecordSelection.Defaults
import FieldMask.RecordSelection.Naming
import FieldMask.RecordSelection.Printer
import FieldMask.Schema.Basic
import FieldMask.Schema.Document
import FieldMask.Schema.Registry
import FieldMask.Selection
import FieldMask.Text.Blank
import FieldMask.Text.Quoted
import FieldMask.Text.Unprintable
import FieldMask.Value.Basic
import FieldMask.Value.Conversion
import FieldMask.Value.Definedness
import FieldMask.Value.Json
import FieldMask.Proofs.ExpressionSyntax
import FieldMask.Proofs.ExpressionErrors
import FieldMask.Proofs.SelectionOperations
import FieldMask.Proofs.BindingInvariant
import FieldMask.Proofs.FieldLookups
import FieldMask.Proofs.PathInvariant
import FieldMask.Proofs.Reachability
import FieldMask.Proofs.NamingInclusion
import FieldMask.Proofs.BindingPaths
import FieldMask.Proofs.NamingRoundTrip
import FieldMask.Proofs.RecordTyping
import FieldMask.Proofs.ProjectionAgreement
import FieldMask.Proofs.BindingAlgebra
import FieldMask.Proofs.PathNaming
import FieldMask.Proofs.PathProjection
import FieldMask.Proofs.PickedPaths
import FieldMask.Proofs.ExcludedLeaves
import FieldMask.Proofs.JsonRoundTrip
import FieldMask.Proofs.RecordClashes
import FieldMask.Proofs.RegistryChanges
import FieldMask.Proofs.RegistryHistory
import FieldMask.Proofs.IncludedPaths
import FieldMask.Proofs.Containment
import FieldMask.Proofs.AssignedPaths
import FieldMask.Proofs.PickedFields
import FieldMask.Proofs.ExcludedFields
import FieldMask.Proofs.AssignedFields
import FieldMask.Proofs.ExpandedDefaults
import FieldMask.Proofs.ConvertedAgain
import FieldMask.Proofs.RecordMembers
import FieldMask.Proofs.BindingErrors
import FieldMask.Proofs.EmittedFields
import FieldMask.Proofs.PathSearches
import FieldMask.Proofs.PathSelections
import FieldMask.Proofs.ListSplitting
import FieldMask.Proofs.SerializedExpressions
import FieldMask.Proofs.QueryForms
import FieldMask.Proofs.ChangedFields
import FieldMask.Proofs.PlainCopies
import FieldMask.Proofs.NameTables
