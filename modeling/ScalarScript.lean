import ScalarScript.CommandLine
import ScalarScript.Main
import ScalarScript.Pool
import ScalarScript.Proofs.Lexical.Closing
import ScalarScript.Proofs.Lexical.Layout
import ScalarScript.Proofs.Lexical.Numerals
import ScalarScript.Proofs.Lexical.Positions
import ScalarScript.Proofs.Phrase.Places
import ScalarScript.Proofs.Program.Answers
import ScalarScript.Proofs.Program.Closed
import ScalarScript.Proofs.Program.Commutation
import ScalarScript.Proofs.Program.Contexts
import ScalarScript.Proofs.Program.Dependence
import ScalarScript.Proofs.Program.Dispatch
import ScalarScript.Proofs.Program.Domains
import ScalarScript.Proofs.Program.EarlyEnd
import ScalarScript.Proofs.Program.Extension
import ScalarScript.Proofs.Program.Joining
import ScalarScript.Proofs.Program.Precedence
import ScalarScript.Proofs.Program.Printing
import ScalarScript.Proofs.Program.Progress
import ScalarScript.Proofs.Program.Record
import ScalarScript.Proofs.Program.SourceLines
import ScalarScript.Proofs.Program.Substitution
import ScalarScript.Proofs.Program.Success
import ScalarScript.Proofs.Program.Viability
import ScalarScript.Proofs.Session.Independence
