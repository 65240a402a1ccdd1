import ExactCalculator.CommandLine

/-!
# The calculator as a program

Reads the arguments, the environment and the standard input, and writes the answers of
`CommandLine` and `Session` line by line.
-/

namespace ExactCalculator

/-- The bytes up to the next line feed, or nothing at the end of the input. -/
partial def readLine (input : IO.FS.Stream) : IO (Option (List UInt8)) := do
  let rec go (line : Array UInt8) : IO (Option (List UInt8)) := do
    let bytes ← input.read 1
    match bytes.toList with
    | [] => return if line.isEmpty then none else some line.toList
    | b :: _ => if b = 10 then return some line.toList else go (line.push b)
  go #[]

/-- Writes at once, so that a prompt is seen before the line is typed. -/
def writeNow (output : IO.FS.Stream) (text : String) : IO Unit := do
  output.putStr text
  output.flush

end ExactCalculator

open ExactCalculator in
def main (arguments : List String) : IO UInt32 := do
  let output ← IO.getStdout
  match Command.ofArguments arguments (← IO.getEnv "CALC_PRECISION") with
  | .refused =>
    IO.eprint CommandLine.usageText
    return 2
  | .version =>
    output.putStr CommandLine.versionText
    return 0
  | .help =>
    output.putStr CommandLine.helpText
    return 0
  | .evaluate o =>
    try
      if o.words.isEmpty then
        writeNow output Session.banner
        let exitCode ← Session.converse (readLine (← IO.getStdin)) (writeNow output)
          (CommandLine.workingPrecision o) o.showRpn
        return UInt32.ofNat exitCode
      else
        let t := CommandLine.session o []
        writeNow output t.output
        return UInt32.ofNat t.exitCode
    catch _ => return 1
