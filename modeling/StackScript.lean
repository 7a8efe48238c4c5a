import StackScript.CommandLine.Arguments
import StackScript.CommandLine.Report
import StackScript.Connection
import StackScript.Console
import StackScript.Decimal.Fixed
import StackScript.Decimal.Scaled
import StackScript.Decimal.Shortest
import StackScript.Dictionary
import StackScript.Echo.Program
import StackScript.Echo.Session
import StackScript.Error
import StackScript.Failure
import StackScript.Generator
import StackScript.Library
import StackScript.LineSession
import StackScript.Machine.Primitive
import StackScript.Machine.State
import StackScript.Machine.Step
import StackScript.Main
import StackScript.Message
import StackScript.Proofs.Brackets
import StackScript.Proofs.ByteRequest
import StackScript.Proofs.CallableNames
import StackScript.Proofs.Capacity
import StackScript.Proofs.ClientSession
import StackScript.Proofs.Comparison
import StackScript.Proofs.ConsoleFrame
import StackScript.Proofs.CountedRepeat
import StackScript.Proofs.DictionaryGrowth
import StackScript.Proofs.EchoConversation
import StackScript.Proofs.EchoReply
import StackScript.Proofs.EchoServer
import StackScript.Proofs.ErrorChain
import StackScript.Proofs.Evolution
import StackScript.Proofs.Extension
import StackScript.Proofs.FailureOrigin
import StackScript.Proofs.Footprint
import StackScript.Proofs.Frame
import StackScript.Proofs.Framing
import StackScript.Proofs.Grammar
import StackScript.Proofs.InputLines
import StackScript.Proofs.IntegerArithmetic
import StackScript.Proofs.IntegerText
import StackScript.Proofs.InvisibleBytes
import StackScript.Proofs.JoinedSource
import StackScript.Proofs.LineReading
import StackScript.Proofs.Nesting
import StackScript.Proofs.NestingLimit
import StackScript.Proofs.OperandContract
import StackScript.Proofs.OutputGrowth
import StackScript.Proofs.OutputLimit
import StackScript.Proofs.PrimitiveCall
import StackScript.Proofs.PrimitiveCauses
import StackScript.Proofs.ProblemPlace
import StackScript.Proofs.QuotedRun
import StackScript.Proofs.RandomInterval
import StackScript.Proofs.Reachable
import StackScript.Proofs.ReadBack
import StackScript.Proofs.Reading
import StackScript.Proofs.Relocation
import StackScript.Proofs.RequestReply
import StackScript.Proofs.Routine
import StackScript.Proofs.Run
import StackScript.Proofs.ScriptInput
import StackScript.Proofs.Sequence
import StackScript.Proofs.SessionRounds
import StackScript.Proofs.SharedInput
import StackScript.Proofs.Simulation
import StackScript.Proofs.SpacedWords
import StackScript.Proofs.StandardMeaning
import StackScript.Proofs.StandardWords
import StackScript.Proofs.StreamReading
import StackScript.Proofs.TextLiteral
import StackScript.Proofs.TextOrder
import StackScript.Proofs.TokenEffect
import StackScript.Proofs.TokenList
import StackScript.Proofs.TokenProgress
import StackScript.Proofs.TokenRequest
import StackScript.Proofs.Variation
import StackScript.Proofs.VerbatimTexts
import StackScript.Proofs.WellFormedText
import StackScript.Proofs.WordCall
import StackScript.Source.Cursor
import StackScript.Source.Lexeme
import StackScript.Source.Location
import StackScript.Source.Token
import StackScript.Stack.Basic
import StackScript.Stack.Operation
import StackScript.Text.Integer
import StackScript.Text.Printable
import StackScript.Text.Quoted
import StackScript.Text.Utf8
import StackScript.Timestamp
import StackScript.Value
import StackScript.Word
