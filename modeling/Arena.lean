import Arena.Formula.Grouping
import Arena.Main
import Arena.Natural.Combination
import Arena.Natural.Computation
import Arena.Page.Dashboard
import Arena.Page.Duration
import Arena.Proofs.Attack.StateSpace
import Arena.Proofs.Attack.Victory
import Arena.Proofs.Capacity.Leaves
import Arena.Proofs.Checker.Budget
import Arena.Proofs.Checker.Obstruction
import Arena.Proofs.Checker.Verdict
import Arena.Proofs.Formula.Rewriting
import Arena.Proofs.Fuzzy.Crisp
import Arena.Proofs.Fuzzy.Duality
import Arena.Proofs.Fuzzy.Grammar
import Arena.Proofs.Generator.Grid
import Arena.Proofs.Model.Agreement
import Arena.Proofs.Natural.Admission
import Arena.Proofs.Natural.Enumeration
import Arena.Proofs.Natural.Equilibrium
import Arena.Proofs.Natural.QuantifiedChecks
import Arena.Proofs.Natural.RenamedPruning
import Arena.Proofs.Natural.TreeText
import Arena.Proofs.Natural.Walks
import Arena.Proofs.Scenario.Encoding
import Arena.Scenario.Verdict
import Arena.Tour
