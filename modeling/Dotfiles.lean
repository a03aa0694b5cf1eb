import Dotfiles.Main
import Dotfiles.Proofs.FileTree.Names
import Dotfiles.Proofs.Path.Order
import Dotfiles.Proofs.Path.Plain
import Dotfiles.Proofs.Profile.Inheritance
import Dotfiles.Proofs.Profile.Confinement
import Dotfiles.Proofs.Profile.Independence
import Dotfiles.Proofs.Profile.Nested
import Dotfiles.Proofs.Compile.Walk
import Dotfiles.Proofs.Compile.Precedence
import Dotfiles.Proofs.Compile.Conflict
import Dotfiles.Proofs.Compile.Ignoring
import Dotfiles.Proofs.Compile.NullDeclarations
import Dotfiles.Proofs.Profile.GatheredOrder
import Dotfiles.Proofs.Profile.DocumentOrder
import Dotfiles.Proofs.Profile.ComponentTree
import Dotfiles.Proofs.Profile.UnexpectedChildren
import Dotfiles.Proofs.Document.NullSections
import Dotfiles.Proofs.Document.ClosedForm
import Dotfiles.Proofs.Document.GlobSpelling
import Dotfiles.Proofs.FileTree.Seeking
import Dotfiles.Proofs.Compile.Listing
import Dotfiles.Proofs.Compile.BadIgnoreLists
import Dotfiles.Proofs.Compile.WithoutLinks
import Dotfiles.Proofs.Compile.SingleEntry
import Dotfiles.Proofs.Compile.HiddenSubtrees
import Dotfiles.Proofs.Path.Climbing
import Dotfiles.Proofs.Path.Joining
import Dotfiles.Proofs.Path.BelowRoot
import Dotfiles.Proofs.FileTree.Leading
import Dotfiles.Proofs.Compile.LinkDestinations
import Dotfiles.Proofs.Path.Rootedness
import Dotfiles.Proofs.Path.Renormalizing
import Dotfiles.Proofs.Glob.Expansion
import Dotfiles.Proofs.Glob.Alternatives
import Dotfiles.Proofs.Settings.HomeDirectories
import Dotfiles.Proofs.Settings.Variables
import Dotfiles.Proofs.Settings.SingleReading
import Dotfiles.Proofs.Profile.Remarks
import Dotfiles.Proofs.Profile.DeclarationGrammar
import Dotfiles.Proofs.CommandLine.Groups
import Dotfiles.Proofs.FileTree.Downwards
import Dotfiles.Proofs.Compile.Descent
import Dotfiles.Proofs.Path.Subtrees
import Dotfiles.Proofs.Document.LoadFailures
