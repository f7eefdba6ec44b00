import PixelLang.Main
import PixelLang.Reader.Stack
import PixelLang.Proofs.Placement
import PixelLang.Proofs.SyntaxTree
import PixelLang.Proofs.Floors
import PixelLang.Proofs.Leaving
import PixelLang.Proofs.Validity
import PixelLang.Proofs.Choices
import PixelLang.Proofs.Texts
import PixelLang.Proofs.Functions
import PixelLang.Proofs.Wrapping
import PixelLang.Proofs.Lines
import PixelLang.Proofs.Naming
import PixelLang.Proofs.Recolouring
import PixelLang.Proofs.Spelling
import PixelLang.Proofs.Separation
import PixelLang.Proofs.Leading
import PixelLang.Proofs.Indentation
import PixelLang.Proofs.Painting
import PixelLang.Proofs.Queueing
import PixelLang.Proofs.Slices
import PixelLang.Proofs.Calls
import PixelLang.Proofs.Numbering
import PixelLang.Proofs.Operands
import PixelLang.Proofs.Analysis
import PixelLang.Proofs.Flatness
import PixelLang.Proofs.Literals
import PixelLang.Proofs.HexForms
import PixelLang.Proofs.Identities
import PixelLang.Proofs.Joining
import PixelLang.Proofs.Redefinition
import PixelLang.Proofs.Concatenation
import PixelLang.Proofs.Agreement
import PixelLang.Proofs.Coordinates
import PixelLang.Proofs.Stacks
import PixelLang.Proofs.Marks
