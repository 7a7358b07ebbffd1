import SaveTree.Kind
import SaveTree.Number.Binary
import SaveTree.Number.Rounding
import SaveTree.Number.Shortest
import SaveTree.Text.Utf8
import SaveTree.Text.Quoted
import SaveTree.Fields
import SaveTree.Fields.Lemmas
import SaveTree.Composite
import SaveTree.Path.Fault
import SaveTree.Wire.Marker
import SaveTree.Wire.Fault
import SaveTree.Json.Number
import SaveTree.Json.Value
import SaveTree.Json.Fault
import SaveTree.Storage.DiskFault
import SaveTree.Error
import SaveTree.State.Basic
import SaveTree.State.Equality
import SaveTree.State.View
import SaveTree.State.Select
import SaveTree.Path.Basic
import SaveTree.Path.Parse
import SaveTree.Path.Follow
import SaveTree.State.AtPath
import SaveTree.Wire.Integer
import SaveTree.Wire.Write
import SaveTree.Wire.Read
import SaveTree.Json.Print
import SaveTree.Json.Reader
import SaveTree.Json.Parse
import SaveTree.Json.Skip
import SaveTree.Json.Typed
import SaveTree.State.Json
import SaveTree.Storage.FileTree
import SaveTree.Storage.Disk
import SaveTree.Number.Text
import SaveTree.Storage.Config
import SaveTree.Storage.ConfigText
import SaveTree.Storage.Files
import SaveTree.Storage.Directory
import SaveTree.Storage.Adapter
import SaveTree.Persistable
import SaveTree.Storage.Store
import SaveTree.Command.Line
import SaveTree.Command.Help
import SaveTree.Command.Run
import SaveTree.Main
import SaveTree.Proofs.Text.Utf8
import SaveTree.Proofs.Wire.BigEndian
import SaveTree.Proofs.Wire.Format
import SaveTree.Proofs.Wire.Lead
import SaveTree.Proofs.Wire.Accepts
import SaveTree.Proofs.Wire.Decode
import SaveTree.Proofs.State.Tree
import SaveTree.Proofs.Wire.Encode
import SaveTree.Proofs.Wire.RoundTrip
import SaveTree.Proofs.Wire.Denoted
import SaveTree.Proofs.Wire.Canonical
import SaveTree.Proofs.Storage.FileTree
import SaveTree.Proofs.Storage.Walk
import SaveTree.Proofs.Storage.Disk
import SaveTree.Proofs.Storage.Adapter
import SaveTree.Proofs.Storage.Store
import SaveTree.Proofs.Storage.Move
import SaveTree.Proofs.State.Views
import SaveTree.Proofs.Path.Write
import SaveTree.Proofs.Path.ReadBack
import SaveTree.Proofs.Path.Frame
import SaveTree.Proofs.Text.CharSet
import SaveTree.Proofs.Path.Grammar
import SaveTree.Proofs.Path.Parse
import SaveTree.Proofs.Path.Text
import SaveTree.Proofs.Json.Width
import SaveTree.Proofs.Path.Storable
import SaveTree.Proofs.State.Json
import SaveTree.Proofs.Command.Line
import SaveTree.Proofs.Command.ReadBack
import SaveTree.Proofs.Storage.FileMap
import SaveTree.Proofs.Storage.Refinement
import SaveTree.Proofs.Wire.Framing
import SaveTree.Proofs.Number.Finite
import SaveTree.Proofs.Json.Document
import SaveTree.Proofs.State.FromJson
import SaveTree.Proofs.State.ThroughJson
import SaveTree.Proofs.Command.Document
import SaveTree.Proofs.Json.Print
import SaveTree.Proofs.Json.ReadBack
import SaveTree.Proofs.Command.Export
import SaveTree.Proofs.Storage.Events
import SaveTree.Proofs.Storage.Places
import SaveTree.Proofs.Storage.Copy
import SaveTree.Proofs.Text.ByteOrder
import SaveTree.Proofs.Storage.Listing
import SaveTree.Proofs.State.Equality
import SaveTree.Proofs.State.Built
import SaveTree.Proofs.State.ComponentWrites
import SaveTree.Proofs.Path.Commute
import SaveTree.Proofs.Storage.Failure
import SaveTree.Proofs.Path.Position
import SaveTree.Proofs.State.AtPath
import SaveTree.Proofs.State.Enumeration
import SaveTree.Proofs.State.Edits
import SaveTree.Proofs.Json.Framing
import SaveTree.Proofs.Json.Spelling
import SaveTree.Proofs.State.Pairs
import SaveTree.Proofs.Wire.Partial
import SaveTree.Proofs.Wire.Size
import SaveTree.Proofs.Storage.Registry
import SaveTree.Proofs.State.NamedValues
import SaveTree.Proofs.Command.Files
import SaveTree.Proofs.Storage.Below
import SaveTree.Proofs.Storage.Reach
import SaveTree.Proofs.Storage.DirectoryList
import SaveTree.Proofs.Wire.Unknown
