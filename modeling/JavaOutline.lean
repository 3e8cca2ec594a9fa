import JavaOutline.Grammar.Operators
import JavaOutline.Main
import JavaOutline.Proofs.Grammar.Depth
import JavaOutline.Proofs.Grammar.Language
import JavaOutline.Proofs.Grammar.Children
import JavaOutline.Proofs.Grammar.Stray
import JavaOutline.Proofs.Grammar.Arrangement
import JavaOutline.Proofs.Grammar.Levels
import JavaOutline.Proofs.Grammar.Accessors
import JavaOutline.Proofs.Lexer.Munch
import JavaOutline.Proofs.Lexer.Reach
import JavaOutline.Proofs.Lexer.Tiling
import JavaOutline.Proofs.Lexer.LineBreaks
import JavaOutline.Proofs.Lexer.Quotes
import JavaOutline.Proofs.Lexer.Respacing
import JavaOutline.Proofs.Lexer.Words
import JavaOutline.Proofs.Text.Utf8
import JavaOutline.Proofs.Tree.Lines
import JavaOutline.Proofs.Network.Wiring
import JavaOutline.Proofs.Network.Admission
import JavaOutline.Proofs.Prediction.Alternatives
import JavaOutline.Proofs.Prediction.Admitted
import JavaOutline.Proofs.Prediction.Preference
import JavaOutline.Proofs.Parser.Complaints
import JavaOutline.Proofs.Parser.Conservation
import JavaOutline.Proofs.Parser.Clean
import JavaOutline.Proofs.Parser.Soundness
import JavaOutline.Proofs.Parser.Stop
import JavaOutline.Proofs.Parser.Sentences
import JavaOutline.Proofs.Parser.Indices
import JavaOutline.Proofs.Parser.Deepening
import JavaOutline.Proofs.Parser.Toil
import JavaOutline.Proofs.Parser.Termination
import JavaOutline.Proofs.Parser.Precedence
import JavaOutline.Proofs.Parser.Reports
import JavaOutline.Proofs.Parser.OnDemand
import JavaOutline.Proofs.Outline.Deeds
import JavaOutline.Proofs.Outline.Reading
import JavaOutline.Proofs.Outline.Ignored
import JavaOutline.Proofs.Outline.SameTokens
import JavaOutline.Proofs.Outline.Inherited
import JavaOutline.Proofs.Outline.Directory
import JavaOutline.Proofs.Outline.Packages
import JavaOutline.Proofs.Outline.Announcements
import JavaOutline.Proofs.Outline.Complete
import JavaOutline.Proofs.Outline.Uncovered
import JavaOutline.Proofs.Outline.Pool
import JavaOutline.Proofs.Outline.Listed
import JavaOutline.Proofs.Outline.Rendering
import JavaOutline.Proofs.Outline.Modifiers
import JavaOutline.Proofs.Outline.Parameters
import JavaOutline.Proofs.Outline.Supertypes
import JavaOutline.Proofs.Outline.MethodsOnly
import JavaOutline.Proofs.Outline.Lines
