import RuleTrace.BracketList.Command

/-!
# Command line

The list command as a program.
-/

/-- Runs the list command on the arguments of the program. -/
def main (args : List String) : IO UInt32 := do
  let stderr ← IO.getStderr
  match RuleTrace.BracketList.run (args.map String.toList) (← stderr.isTty) with
  | .ok result =>
    stderr.putStr (String.ofList result.stderr)
    (← IO.getStdout).putStr (String.ofList result.stdout)
    return UInt32.ofNat result.code
  | .error e =>
    stderr.putStrLn (String.ofList e.message)
    return 1
