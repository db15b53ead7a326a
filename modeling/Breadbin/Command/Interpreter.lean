import Breadbin.Command.Build
import Breadbin.Command.Run
import Breadbin.Release

/-!
# Carrying out a command line

Arguments are matched with a command and its flags, the command is carried out, and its failure is
told.
-/

namespace Breadbin.Command

/-- Tells about the release. -/
def version (c : Call) : Job Unit := do
  let format := c.flag "format"
  match Text.lower format with
  | "pretty" => Job.ask (.print (Text.bytesOf (Release.banner c.colour {})))
  | "json" => Job.ask (.print (Text.bytesOf (Release.document {})))
  | _ => throw (.versionFormat format)

/-- Explains a command. -/
def help (c : Call) : Job Unit := do
  match find c.arguments.others.toList with
  | .ok (e, _) => Job.ask (.print (Text.bytesOf e.explanation))
  | .error _ =>
    let topics := " ".intercalate (c.arguments.others.toList.map fun s => "`" ++ s ++ "`")
    Job.ask (.complain ("Unknown help topic [" ++ topics ++ "]\n" ++ rootEntry.usage))

/-- What a command does. -/
def perform (name : Name) (c : Call) : Job Unit :=
  match name with
  | .build => build c
  | .run => run c
  | .disassemble => showCode c
  | .inspect => inspect c
  | .init => init c
  | .version => version c
  | .root | .help => help c

/-- Carries out a command and tells its failure; the trace is ended either way. -/
def performTraced (e : Entry) (c : Call) : Work Bool := do
  let complain (error : CommandError) : Work Unit :=
    Work.ask (.complain ("Error: " ++ error.message ++ "\n"))
  match colourOf (c.flag "color") c.surroundings.colour with
  | .error error => complain error; return false
  | .ok colour =>
    let c := { c with colour }
    match TraceRequest.ofCall? c with
    | .error error => complain error; return false
    | .ok request =>
      match ← (request.forM TraceRequest.start).run with
      | .error error => complain error; return false
      | .ok () =>
        let result ← (perform e.name c).run
        if let .error error := result then complain error
        request.forM (·.stop !result.isOk)
        return result.isOk

/-- Carries out a command whose arguments are read. -/
def execute (s : Surroundings) (e : Entry) (a : Arguments) : Script Bool := do
  let print (text : String) : Script Bool := do
    Script.request (.print (Text.bytesOf text))
    return true
  if a.isOn "help" then print e.explanation
  else if e.name = .root then
    if a.isOn "version" then print ("halfbyte version " ++ Release.version {} ++ "\n")
    else print e.explanation
  else
    match e.arity.refusal? a.others.size with
    | some error =>
      Script.request (.complain ("Error: " ++ error.message ++ "\n"))
      return false
    | none =>
      let timing := if a.isOn "timings" then some {} else none
      let call : Call := { surroundings := s, flags := e.allFlags, arguments := a }
      return (← (performTraced e call).run { timing }).1

/-- Carries out a command line; tells whether it succeeded. -/
def interpret (s : Surroundings) (args : List String) : Script Bool := do
  let fail (error : UsageError) (more : String) : Script Bool := do
    Script.request (.complain ("Error: " ++ error.message ++ "\n" ++ more))
    return false
  match find args with
  | .error error => fail error "Run 'halfbyte --help' for usage.\n"
  | .ok (e, args) =>
    match Arguments.parse e.allFlags args with
    | .error error => fail error ""
    | .ok a => execute s e a

end Breadbin.Command
