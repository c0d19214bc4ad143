import Reclass.Json.Parse
import Reclass.Session
import Reclass.Proofs.Access.Transcript
import Reclass.Proofs.Hierarchy.Reach
import Reclass.Proofs.Hierarchy.Recording
import Reclass.Proofs.Hierarchy.Inheritance
import Reclass.Proofs.Session.InheritedNames
import Reclass.Proofs.Pipeline.Traversal
import Reclass.Proofs.Session.Transform
import Reclass.Proofs.Session.References
import Reclass.Proofs.Descriptor.Grammar
import Reclass.Proofs.Signature.Types
import Reclass.Proofs.Signature.Grammar
import Reclass.Proofs.RenameTable.Undo
import Reclass.Proofs.Renaming.Mention
import Reclass.Proofs.Renaming.Plain
import Reclass.Proofs.Renaming.WayBack
import Reclass.Proofs.Binary.Exact
import Reclass.Proofs.ClassTree.Binary
import Reclass.Proofs.Hierarchy.Override
import Reclass.Proofs.Renaming.Idle
import Reclass.Proofs.Renaming.Nameless
import Reclass.Proofs.Session.Untouched
import Reclass.Proofs.Session.Flattening
import Reclass.Session.SideBySide
import Reclass.Proofs.Session.Order
import Reclass.Proofs.Session.Isolation
import Reclass.Proofs.Pipeline.Composition
import Reclass.Proofs.Hierarchy.BreadthFirst
import Reclass.Proofs.Signature.Spelling
import Reclass.Proofs.Signature.Nesting
import Reclass.Proofs.RenameTable.Document
import Reclass.Proofs.Descriptor.Spelling
import Reclass.Proofs.Renaming.References
import Reclass.Proofs.Access.Visits
import Reclass.Proofs.Access.Combination
import Reclass.Proofs.Trait.Buffer
import Reclass.Proofs.Trait.Application
import Reclass.Proofs.RenameTable.UndoTwice
import Reclass.Proofs.Renaming.Skeleton
import Reclass.Proofs.ClassName.SimpleName
import Reclass.Proofs.Hierarchy.TwoPasses
import Reclass.Proofs.Session.TwoBatches
import Reclass.Proofs.Signature.OfDescriptor
