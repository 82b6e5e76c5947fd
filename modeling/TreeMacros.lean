import TreeMacros.Console.Describe
import TreeMacros.Debug.Unlocated
import TreeMacros.Main
import TreeMacros.Proofs.Cycles
import TreeMacros.Proofs.DumpLayout
import TreeMacros.Proofs.ExpandedContexts
import TreeMacros.Proofs.FormattedStrings
import TreeMacros.Proofs.GlobalNames
import TreeMacros.Proofs.ImportLines
import TreeMacros.Proofs.InputErrors
import TreeMacros.Proofs.Isolation
import TreeMacros.Proofs.LineCounts
import TreeMacros.Proofs.MainProgram
import TreeMacros.Proofs.NestedQuotes
import TreeMacros.Proofs.ParameterLists
import TreeMacros.Proofs.Pasting
import TreeMacros.Proofs.PlainImports
import TreeMacros.Proofs.RecordViews
import TreeMacros.Proofs.Rejection
import TreeMacros.Proofs.Renaming
import TreeMacros.Proofs.SearchPath
import TreeMacros.Proofs.Stacking
import TreeMacros.Proofs.WalkStates
import TreeMacros.Proofs.WrappedLiterals
