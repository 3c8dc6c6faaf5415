import DeferredBinding.Artifact.Basic
import DeferredBinding.Artifact.Codec
import DeferredBinding.Artifact.Set
import DeferredBinding.CommandLine.Arguments
import DeferredBinding.CommandLine.Explanation
import DeferredBinding.CommandLine.Run
import DeferredBinding.Deploy.Layout
import DeferredBinding.Deploy.Output
import DeferredBinding.Diagnostic.Code
import DeferredBinding.Diagnostic.Report
import DeferredBinding.Dict
import DeferredBinding.Disk.Node
import DeferredBinding.Disk.Operations
import DeferredBinding.Disk.Refusal
import DeferredBinding.Disk.Walk
import DeferredBinding.Host
import DeferredBinding.Json.Basic
import DeferredBinding.Json.Printer
import DeferredBinding.Json.Reader
import DeferredBinding.Json.Shape
import DeferredBinding.Link.Chain
import DeferredBinding.Link.Context
import DeferredBinding.Link.Dispatch
import DeferredBinding.Link.Error
import DeferredBinding.Link.Manifest
import DeferredBinding.Link.Run
import DeferredBinding.Main
import DeferredBinding.Module.Definition
import DeferredBinding.Path
import DeferredBinding.Proofs.Artifact.History
import DeferredBinding.Proofs.Artifact.Set
import DeferredBinding.Proofs.Deploy.Abandoned
import DeferredBinding.Proofs.Deploy.Contents
import DeferredBinding.Proofs.Deploy.Failure
import DeferredBinding.Proofs.Deploy.Frame
import DeferredBinding.Proofs.Deploy.Layout
import DeferredBinding.Proofs.Deploy.Materialized
import DeferredBinding.Proofs.Deploy.Resolved
import DeferredBinding.Proofs.Deploy.Resources
import DeferredBinding.Proofs.Deploy.Staging
import DeferredBinding.Proofs.Diagnostic.JsonLines
import DeferredBinding.Proofs.Dict
import DeferredBinding.Proofs.Disk.Confined
import DeferredBinding.Proofs.Disk.Files
import DeferredBinding.Proofs.Disk.Listing
import DeferredBinding.Proofs.Disk.Node
import DeferredBinding.Proofs.Disk.Walk
import DeferredBinding.Proofs.Json.ReadBack
import DeferredBinding.Proofs.Link.Chain
import DeferredBinding.Proofs.Link.Combination
import DeferredBinding.Proofs.Link.Context
import DeferredBinding.Proofs.Link.Gathered
import DeferredBinding.Proofs.Link.Manifest
import DeferredBinding.Proofs.Link.Merge
import DeferredBinding.Proofs.Link.PinTime
import DeferredBinding.Proofs.Link.Precompiled
import DeferredBinding.Proofs.Link.Script
import DeferredBinding.Proofs.Link.Stale
import DeferredBinding.Proofs.Link.Standard
import DeferredBinding.Proofs.Lists
import DeferredBinding.Proofs.Machine
import DeferredBinding.Proofs.Path
import DeferredBinding.Proofs.Property.Calls
import DeferredBinding.Proofs.Property.Enumeration
import DeferredBinding.Proofs.Property.Invariant
import DeferredBinding.Proofs.Property.PinOrder
import DeferredBinding.Proofs.Property.Pinned
import DeferredBinding.Proofs.Property.Rows
import DeferredBinding.Proofs.Record.Codec
import DeferredBinding.Proofs.Record.HandOff
import DeferredBinding.Proofs.Text.ReadBack
import DeferredBinding.Property.Error
import DeferredBinding.Property.Model
import DeferredBinding.Property.Permutation
import DeferredBinding.Record.Basic
import DeferredBinding.Text.Base64
import DeferredBinding.Text.Basic
import DeferredBinding.Text.Sha256
import DeferredBinding.Text.Silent
import DeferredBinding.Toml.Reader
import DeferredBinding.Toml.Scalar
import DeferredBinding.Toml.Value
