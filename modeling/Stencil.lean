import Stencil.Render.Rendering
import Stencil.Render.ValueReader
import Stencil.Syntax.Frame
import Stencil.Tree.Outline
import Stencil.Tree.Rules
import Stencil.Proofs.Code.NamedArguments
import Stencil.Proofs.Code.Needs
import Stencil.Proofs.Code.Renaming
import Stencil.Proofs.Code.RoundTrip
import Stencil.Proofs.Code.Shape
import Stencil.Proofs.Layout.Adjacency
import Stencil.Proofs.Layout.ChainClosing
import Stencil.Proofs.Layout.ChainMarker
import Stencil.Proofs.Layout.Inverted
import Stencil.Proofs.Layout.Trimming
import Stencil.Proofs.Render.Backends
import Stencil.Proofs.Render.Caching
import Stencil.Proofs.Render.Degrading
import Stencil.Proofs.Render.Depth
import Stencil.Proofs.Render.EmptyPartials
import Stencil.Proofs.Render.Escaping
import Stencil.Proofs.Render.Fallback
import Stencil.Proofs.Render.Handing
import Stencil.Proofs.Render.Iteration
import Stencil.Proofs.Render.Leniency
import Stencil.Proofs.Render.Precedence
import Stencil.Proofs.Render.Reentering
import Stencil.Proofs.Render.Sandboxing
import Stencil.Proofs.Render.Scoping
import Stencil.Proofs.Render.Sequencing
import Stencil.Proofs.Render.Strictness
import Stencil.Proofs.Render.Tracking
import Stencil.Proofs.Render.Validity
import Stencil.Proofs.Render.Verbatim
import Stencil.Proofs.Render.Walking
import Stencil.Proofs.Syntax.Balance
import Stencil.Proofs.Syntax.BracketedNames
import Stencil.Proofs.Syntax.Comments
import Stencil.Proofs.Syntax.Covering
import Stencil.Proofs.Syntax.Locating
import Stencil.Proofs.Syntax.NameTags
import Stencil.Proofs.Syntax.SourceOrder
import Stencil.Proofs.Syntax.Spacing
import Stencil.Proofs.Syntax.StringLiterals
import Stencil.Proofs.Text.Counting
import Stencil.Proofs.Text.Indentation
import Stencil.Proofs.Text.Unescaping
import Stencil.Proofs.Tree.RoundTrip
import Stencil.Proofs.Tree.Splicing
