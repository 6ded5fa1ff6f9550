import CodeRules.Binding.Solutions
import CodeRules.Code.TreeBuilder
import CodeRules.Fragment.Compile
import CodeRules.Fragment.Generate
import CodeRules.Fragment.Recognize
import CodeRules.Goal.Compile
import CodeRules.Goal.Solve
import CodeRules.Program.Builtins
import CodeRules.Rule.Module
import CodeRules.Session
import CodeRules.Statement.Schedule
import CodeRules.Table.Trace
import CodeRules.Proofs.Effect
import CodeRules.Proofs.Fragment.WellFormed
import CodeRules.Proofs.Order.Catalog
import CodeRules.Proofs.Order.Digraph
import CodeRules.Proofs.Goal.WellFormed
import CodeRules.Proofs.List
import CodeRules.Proofs.Statement.Schedule
import CodeRules.Proofs.Statement.Grouping
import CodeRules.Proofs.Order.Depth
import CodeRules.Proofs.Binding.Bindings
import CodeRules.Proofs.Binding.View
import CodeRules.Proofs.Binding.Join
import CodeRules.Proofs.Binding.Merge
import CodeRules.Proofs.Binding.Product
import CodeRules.Proofs.Relation.Store
import CodeRules.Proofs.Relation.Proper
import CodeRules.Proofs.Statement.Realization
import CodeRules.Proofs.Table.Argument
import CodeRules.Proofs.Table.Construct
import CodeRules.Proofs.Table.Guards
import CodeRules.Proofs.Table.Level
import CodeRules.Proofs.Table.Run
import CodeRules.Proofs.Table.Solve
import CodeRules.Proofs.Table.Consistent
import CodeRules.Proofs.Session
import CodeRules.Proofs.Code.Normal
import CodeRules.Proofs.Binding.Normal
import CodeRules.Proofs.Program.Normal
import CodeRules.Proofs.Fragment.Normal
import CodeRules.Proofs.Code.Copy
import CodeRules.Proofs.Fragment.Generated
import CodeRules.Proofs.Goal.Normal
import CodeRules.Proofs.Goal.Answers
import CodeRules.Proofs.Goal.NormalAnswers
import CodeRules.Proofs.Goal.Monotone
import CodeRules.Proofs.Goal.Compile
import CodeRules.Proofs.Goal.Mention
import CodeRules.Proofs.Program.Below
import CodeRules.Proofs.Program.Builtins
import CodeRules.Proofs.Goal.Growth
import CodeRules.Proofs.Goal.Free
import CodeRules.Proofs.Goal.Yields
import CodeRules.Proofs.Goal.Extension
import CodeRules.Proofs.Goal.Join
import CodeRules.Proofs.Statement.Ranks
import CodeRules.Proofs.Statement.Reads
import CodeRules.Proofs.Table.Conclusions
import CodeRules.Proofs.Table.Passes
import CodeRules.Proofs.Table.Fixpoint
import CodeRules.Proofs.Fragment.Inverse
import CodeRules.Proofs.Fragment.Values
import CodeRules.Proofs.Fragment.ModifierSet
import CodeRules.Proofs.Goal.Values
import CodeRules.Proofs.Binding.Pairing
import CodeRules.Proofs.Fragment.Variant
import CodeRules.Proofs.Rule.Variant
import CodeRules.Proofs.Goal.Variant
import CodeRules.Proofs.Goal.Frame
import CodeRules.Proofs.Fragment.Scope
import CodeRules.Proofs.Goal.Scope
import CodeRules.Proofs.Goal.Domain
import CodeRules.Proofs.Table.Settling
import CodeRules.Proofs.Table.Transfer
import CodeRules.Proofs.Table.Part
import CodeRules.Proofs.Table.Account
import CodeRules.Proofs.Table.Confluence
import CodeRules.Proofs.Table.Uniform
import CodeRules.Proofs.Table.Permutation
import CodeRules.Proofs.Goal.Candidates
import CodeRules.Proofs.Binding.Outline
import CodeRules.Proofs.Code.Rebuild
import CodeRules.Proofs.Fragment.Parts
import CodeRules.Proofs.Fragment.Exact
import CodeRules.Proofs.Fragment.Assignment
import CodeRules.Proofs.Fragment.Constant
import CodeRules.Proofs.Fragment.ModifierSearch
import CodeRules.Proofs.Fragment.Blank
import CodeRules.Proofs.Fragment.Piece
import CodeRules.Proofs.Fragment.Opened
import CodeRules.Proofs.Goal.Duality
import CodeRules.Proofs.Code.Fresh
import CodeRules.Proofs.Fragment.Fresh
import CodeRules.Proofs.Code.Origin
import CodeRules.Proofs.Rule.Renaming
import CodeRules.Proofs.Goal.OrderFree
import CodeRules.Proofs.Goal.Renaming
import CodeRules.Proofs.Code.Relabel
import CodeRules.Proofs.Binding.Relabel
import CodeRules.Proofs.Program.Relabel
import CodeRules.Proofs.Fragment.Relabel
import CodeRules.Proofs.Code.Blur
import CodeRules.Proofs.Code.Parallel
import CodeRules.Proofs.Fragment.Parallel
import CodeRules.Proofs.Goal.Parallel
import CodeRules.Proofs.Code.Comparison
import CodeRules.Proofs.Relation.Comparison
import CodeRules.Proofs.Program.Inheritance
import CodeRules.Proofs.Code.Scope
import CodeRules.Proofs.Program.References
import CodeRules.Proofs.Code.CopyChain
import CodeRules.Proofs.Text.Template
import CodeRules.Proofs.Code.Traced
import CodeRules.Proofs.Fragment.Written
import CodeRules.Proofs.Fragment.Traced
import CodeRules.Proofs.Goal.Traced
import CodeRules.Proofs.Table.Traced
import CodeRules.Proofs.Table.Origins
import CodeRules.Proofs.Table.Again
