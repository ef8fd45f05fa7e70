import LuaMachine.Chunk.Decode
import LuaMachine.Chunk.Encode
import LuaMachine.Chunk.Fault
import LuaMachine.Chunk.Verify
import LuaMachine.Code.Instr
import LuaMachine.Code.Listing
import LuaMachine.Code.Proto
import LuaMachine.Command.Disk
import LuaMachine.Command.Options
import LuaMachine.Command.Run
import LuaMachine.Command.Source
import LuaMachine.Compiler.Expr
import LuaMachine.Compiler.Expression
import LuaMachine.Compiler.Fault
import LuaMachine.Compiler.Jump
import LuaMachine.Compiler.Operator
import LuaMachine.Compiler.Scope
import LuaMachine.Compiler.State
import LuaMachine.Compiler.Statement
import LuaMachine.Compiler.Value
import LuaMachine.Lexer.Scan
import LuaMachine.Lexer.Stream
import LuaMachine.Lexer.Token
import LuaMachine.Machine.Execute
import LuaMachine.Machine.Failure
import LuaMachine.Machine.Library
import LuaMachine.Machine.Naming
import LuaMachine.Machine.Run
import LuaMachine.Machine.State
import LuaMachine.Main
import LuaMachine.Number.Basic
import LuaMachine.Number.Decimal
import LuaMachine.Number.Double
import LuaMachine.Number.Numeral
import LuaMachine.Text.ChunkName
import LuaMachine.Text.Hash
import LuaMachine.Text.Hidden
import LuaMachine.Text.Quoted
import LuaMachine.Text.Utf8
import LuaMachine.Value.Arith
import LuaMachine.Value.Basic
import LuaMachine.Value.Table
import LuaMachine.Proofs.Chunk.RoundTrip
import LuaMachine.Proofs.Machine.Instruction
import LuaMachine.Proofs.Value.Key
import LuaMachine.Proofs.Value.TableMap
import LuaMachine.Proofs.Chunk.Compiled
import LuaMachine.Proofs.Chunk.Prefix
import LuaMachine.Proofs.Machine.Call
import LuaMachine.Proofs.Machine.Library
import LuaMachine.Proofs.Machine.Restore
import LuaMachine.Proofs.Machine.Run
import LuaMachine.Proofs.Meaning.Evaluation
import LuaMachine.Proofs.Value.Border
import LuaMachine.Proofs.Value.LoopLimit
import LuaMachine.Proofs.Value.TableWalk
import LuaMachine.Proofs.Machine.Loop
import LuaMachine.Proofs.Machine.Budget
import LuaMachine.Proofs.Machine.Capture
import LuaMachine.Proofs.Machine.Frames
import LuaMachine.Proofs.Machine.Strip
import LuaMachine.Proofs.Precedence.Reading
import LuaMachine.Proofs.Protocol.Returning
import LuaMachine.Proofs.Arithmetic.Evaluation
import LuaMachine.Proofs.Registers.Statement
import LuaMachine.Proofs.Assignment.Statement
import LuaMachine.Proofs.Constructor.Call
import LuaMachine.Proofs.Constructor.Statement
import LuaMachine.Proofs.Value.Order
import LuaMachine.Proofs.Machine.Join
import LuaMachine.Proofs.Number.Base
import LuaMachine.Proofs.Number.Integer
import LuaMachine.Proofs.Number.Text
import LuaMachine.Proofs.Lexer.Line
import LuaMachine.Proofs.Lexer.Tiling
import LuaMachine.Proofs.Lexer.Lookahead
import LuaMachine.Proofs.Lexer.Quoted
import LuaMachine.Proofs.Text.Utf8
import LuaMachine.Proofs.Lexical.Block
import LuaMachine.Proofs.Lexical.Expression
import LuaMachine.Proofs.Lexical.Statement
import LuaMachine.Proofs.Structured.Call
import LuaMachine.Proofs.Text.ChunkName
import LuaMachine.Proofs.Command.Arguments
import LuaMachine.Proofs.Value.TableParts
import LuaMachine.Proofs.Jumps.Faithful
import LuaMachine.Proofs.Machine.LastWrite
import LuaMachine.Proofs.Sketch.Ranges
import LuaMachine.Proofs.Sketch.Merging
