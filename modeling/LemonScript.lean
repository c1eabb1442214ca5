import LemonScript.Files.Tree
import LemonScript.Main
import LemonScript.Proofs.Build.Directory
import LemonScript.Proofs.Compiler.Behaviour
import LemonScript.Proofs.Compiler.Loops
import LemonScript.Proofs.Compiler.Passes
import LemonScript.Proofs.Compiler.Statements
import LemonScript.Proofs.Grammar.Comment
import LemonScript.Proofs.Grammar.Failure
import LemonScript.Proofs.Grammar.Furthest
import LemonScript.Proofs.Grammar.Printed
import LemonScript.Proofs.Semantics.Effects
import LemonScript.Proofs.Source.Position
import LemonScript.Proofs.Token.Word
import LemonScript.Proofs.Typing.Keys
import LemonScript.Proofs.Typing.Unused
import LemonScript.Proofs.Variants.Methods
import LemonScript.Proofs.Assembly.Reading
import LemonScript.Proofs.TypeInfo.RoundTrip
import LemonScript.Proofs.Typing.Registry
