import TokenCircuit.Analysis.Connectivity
import TokenCircuit.Analysis.Facts
import TokenCircuit.Annotation
import TokenCircuit.Channel.Basic
import TokenCircuit.Channel.Payload
import TokenCircuit.Channelization
import TokenCircuit.Circuit.Expr
import TokenCircuit.Circuit.Module
import TokenCircuit.Circuit.Operator
import TokenCircuit.Circuit.Printer
import TokenCircuit.Circuit.SignalType
import TokenCircuit.Circuit.Stmt
import TokenCircuit.Clock.Domain
import TokenCircuit.Collection.OrderedMap
import TokenCircuit.Collection.OrderedSet
import TokenCircuit.Config
import TokenCircuit.Demo.Artifact
import TokenCircuit.Demo.Disk
import TokenCircuit.Demo.Path
import TokenCircuit.Demo.Sampler
import TokenCircuit.Demo.Stages
import TokenCircuit.Error
import TokenCircuit.Journal
import TokenCircuit.Main
import TokenCircuit.Model.Basic
import TokenCircuit.Model.ClockSource
import TokenCircuit.Model.Dependency
import TokenCircuit.Model.Firing
import TokenCircuit.Model.Interface
import TokenCircuit.Model.Logic
import TokenCircuit.Model.Placement
import TokenCircuit.Model.Plan
import TokenCircuit.NameSupply
import TokenCircuit.Proofs.Acceptance
import TokenCircuit.Proofs.Accounting
import TokenCircuit.Proofs.BreadthFirst
import TokenCircuit.Proofs.Channelizing
import TokenCircuit.Proofs.ClockTokens
import TokenCircuit.Proofs.Dependencies
import TokenCircuit.Proofs.Drivers
import TokenCircuit.Proofs.Epochs
import TokenCircuit.Proofs.Evaluation
import TokenCircuit.Proofs.FirstRecords
import TokenCircuit.Proofs.Frame
import TokenCircuit.Proofs.FreshNames
import TokenCircuit.Proofs.Gating
import TokenCircuit.Proofs.HostCycle
import TokenCircuit.Proofs.Hygiene
import TokenCircuit.Proofs.Indentation
import TokenCircuit.Proofs.Influence
import TokenCircuit.Proofs.InnerPorts
import TokenCircuit.Proofs.JoinedFields
import TokenCircuit.Proofs.Joining
import TokenCircuit.Proofs.Latency
import TokenCircuit.Proofs.Leaves
import TokenCircuit.Proofs.Linking
import TokenCircuit.Proofs.Locations
import TokenCircuit.Proofs.Names
import TokenCircuit.Proofs.Outline
import TokenCircuit.Proofs.OutputDrivers
import TokenCircuit.Proofs.PayloadTypes
import TokenCircuit.Proofs.Payloads
import TokenCircuit.Proofs.Placing
import TokenCircuit.Proofs.Planning
import TokenCircuit.Proofs.Protection
import TokenCircuit.Proofs.Protocol
import TokenCircuit.Proofs.Reachability
import TokenCircuit.Proofs.Readability
import TokenCircuit.Proofs.Records
import TokenCircuit.Proofs.Relocation
import TokenCircuit.Proofs.Resolution
import TokenCircuit.Proofs.Rewriting
import TokenCircuit.Proofs.Rules
import TokenCircuit.Proofs.Scoping
import TokenCircuit.Proofs.Settling
import TokenCircuit.Proofs.Solutions
import TokenCircuit.Proofs.Target
import TokenCircuit.Proofs.TargetOrder
import TokenCircuit.Proofs.Timestamps
import TokenCircuit.Proofs.TopNames
import TokenCircuit.Renaming.RenameMap
import TokenCircuit.Renaming.Target
import TokenCircuit.Text.Lines
import TokenCircuit.Top.Basic
import TokenCircuit.Top.Endpoint
import TokenCircuit.Top.Rewiring
