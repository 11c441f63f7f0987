import GoTrees.Proofs.Accesses
import GoTrees.Proofs.ArrayConstants
import GoTrees.Proofs.ByReference
import GoTrees.Proofs.Checksum
import GoTrees.Proofs.Comparisons
import GoTrees.Proofs.Computations
import GoTrees.Proofs.Defaults
import GoTrees.Proofs.Dispatch
import GoTrees.Proofs.Elements
import GoTrees.Proofs.FilePaths
import GoTrees.Proofs.HandEdits
import GoTrees.Proofs.Inheritance
import GoTrees.Proofs.PrimitiveTypes
import GoTrees.Proofs.Pruning
import GoTrees.Proofs.Rebuild
import GoTrees.Proofs.Signatures
import GoTrees.Proofs.Spending
import GoTrees.Proofs.StringLiterals
import GoTrees.Proofs.Uniqueness
import GoTrees.Proofs.UsedImports
import GoTrees.Yaml.Inline
import GoTrees.Yaml.Read
