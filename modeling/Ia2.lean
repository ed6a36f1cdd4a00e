import Ia2.Library.IntervalTree
import Ia2.Library.Runs
import Ia2.Library.Lists
import Ia2.Library.Tables
import Ia2.Library.Paths
import Ia2.Library.ByteMemory
import Ia2.Library.Pieces
import Ia2.Library.StraightLine
import Ia2.Library.Scanf
import Ia2.Library.Requests
import Ia2.Library.Bpf
import Ia2.Tracer.Range
import Ia2.Tracer.MemoryMap
import Ia2.Tracer.Pages
import Ia2.Tracer.PageMap
import Ia2.Tracer.Events
import Ia2.Tracer.Kernel
import Ia2.Tracer.Effects
import Ia2.Tracer.Policy
import Ia2.Tracer.Refinement
import Ia2.Tracer.Panics
import Ia2.Tracer.Processes
import Ia2.Tracer.ForbidPaths
import Ia2.Tracer.Strv
import Ia2.Tracer.PokeMaps
import Ia2.Tracer.InitialMap
import Ia2.Tracer.Ptrace
import Ia2.Tracer.Tracees
import Ia2.Tracer.OneThread
import Ia2.Tracer.Handling
import Ia2.Tracer.ThreadTable
import Ia2.Tracer.Moves
import Ia2.Tracer.Interleaving
import Ia2.Tracer.Focus
import Ia2.Tracer.Children
import Ia2.Tracer.Rounds
import Ia2.Tracer.Mediation
import Ia2.Tracer.SeccompFilter
import Ia2.Runtime.Tls
import Ia2.Runtime.TypeRegistry
import Ia2.Runtime.ViolationQueue
import Ia2.Runtime.PermissiveMode
import Ia2.Runtime.ThreadStacks
import Ia2.Runtime.DynamicTable
import Ia2.Runtime.Destructors
import Ia2.Runtime.ExtraLibraries
import Ia2.Runtime.ProtectPages
import Ia2.Runtime.SetupCompartment
import Ia2.Runtime.ThreadMetadata
import Ia2.X86.Machine
import Ia2.Rewriter.CAbi
import Ia2.Rewriter.DetermineAbi
import Ia2.Rewriter.GenCallAsm
import Ia2.Rewriter.Locations
import Ia2.Rewriter.Shift
import Ia2.Rewriter.Sysv
import Ia2.Rewriter.SourceRewriter
import Ia2.Rewriter.GateTargets
import Ia2.Rewriter.DirectGates
import Ia2.X86.Stack
import Ia2.X86.Copy
import Ia2.Gate.Phases
import Ia2.Gate.Scrub
import Ia2.Gate.Crossing
import Ia2.Gate.Frame
import Ia2.Gate.Run
import Ia2.Gate.Direct
import Ia2.Gate.Leaks
import Ia2.Gate.Keys
import Ia2.Gate.Conditions
import Ia2.Gate.ConditionArgs
import Ia2.Gate.Alignment
import Ia2.Gate.TypeChecks
import Ia2.Gate.Nested
import Ia2.Gate.Moves
import Ia2.Gate.Site
import Ia2.Gate.Indirect
import Ia2.Arm.Machine
import Ia2.Arm.Aapcs
import Ia2.Arm.CAbi
import Ia2.Arm.GenCallAsm
import Ia2.Arm.Locations
import Ia2.Arm.Gate
import Ia2.Arm.Frames
import Ia2.Rewriter.Memcpy
import Ia2.Arm.Copies
import Ia2.Arm.Scrub
import Ia2.Arm.ScrubLoops
import Ia2.Arm.Crossing
import Ia2.Arm.StackPointer
import Ia2.Arm.Layout
import Ia2.Arm.Results
import Ia2.Arm.Shift
import Ia2.Arm.Moves
import Ia2.Arm.Site
import Ia2.Arm.SiteArgs
import Ia2.Arm.Delivery
import Ia2.Arm.InStep
import Ia2.Arm.Indirect
