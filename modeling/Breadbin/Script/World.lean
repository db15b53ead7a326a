import Breadbin.Build.Progress
import Breadbin.Cache.Entry
import Breadbin.Files.Tree

/-!
# Scripts

Scripts, and a world in memory on which they are carried out.
-/

namespace Breadbin

/-!
## Scripts

What a command does to the world around it is written down as a script: a request, and what to do
next for every possible reply.  A script can be carried out on files in memory or on real ones, at
once or in turns with other scripts.
-/

/-- What a script asks of the world. -/
inductive Request where
  /-- whether a path leads to a directory -/
  | look (path : Bytes)
  | read (path : Bytes)
  | write (path : Bytes) (contents : Bytes)
  /-- make a directory and those it lies in -/
  | makeDirectories (path : Bytes)
  /-- the names within a directory -/
  | list (path : Bytes)
  /-- what the cache keeps under a key -/
  | fetch (key : Bytes)
  | keep (key : Bytes) (payload : Cache.Payload)
  /-- tell whoever watches -/
  | tell (news : Build.Progress)
  | print (text : Bytes)
  | complain (text : String)
  /-- the time, in nanoseconds -/
  | now
  deriving Inhabited

/-- What the reply to a request is. -/
abbrev Request.Reply : Request → Type
  | look _ => Except FileError Bool
  | read _ => Except FileError Bytes
  | write _ _ | makeDirectories _ => Except FileError Unit
  | list _ => List Bytes
  | fetch _ => Option Cache.Payload
  | keep _ _ | tell _ | print _ | complain _ => Unit
  | now => Int

/-- A request after the other, and a result in the end. -/
inductive Script (α : Type) where
  | done (a : α)
  | ask (r : Request) (next : r.Reply → Script α)

namespace Script

variable {α β : Type}

/-- One script, and another that depends on its result. -/
def andThen : Script α → (α → Script β) → Script β
  | done a, f => f a
  | ask r next, f => ask r fun x => (next x).andThen f

instance : Monad Script where
  pure := done
  bind := andThen

/-- A script of a single request. -/
def request (r : Request) : Script r.Reply := ask r done

/-- Carries out a script with a way to answer requests. -/
def run {σ : Type} (answer : (r : Request) → σ → r.Reply × σ) : Script α → σ → α × σ
  | done a, s => (a, s)
  | ask r next, s =>
    match answer r s with
    | (x, s) => (next x).run answer s

end Script

/-!
## Scripts in memory

A world of files, kept images and texts on which scripts are carried out.
-/

/-- Everything a script can see and change. -/
structure World where
  files : FileTree := {}
  cache : Cache.Store := {}
  /-- the news so far -/
  news : Array Build.Progress := #[]
  printed : Bytes := []
  complaints : String := ""
  time : Int := 0
  deriving Inhabited

namespace World

/-- Keeps the changed files, or tells why there are none. -/
def settle (w : World) : Except FileError FileTree → Except FileError Unit × World
  | .error e => (.error e, w)
  | .ok files => (.ok (), { w with files })

/-- Answers a request. -/
def answer : (r : Request) → World → r.Reply × World
  | .look path, w => ((·.isDirectory) <$> w.files.look path, w)
  | .read path, w => (w.files.read path, w)
  | .write path contents, w => w.settle (w.files.write path contents)
  | .makeDirectories path, w => w.settle (w.files.makeDirectories path)
  | .list path, w => (w.files.list path, w)
  | .fetch key, w => (w.cache.fetch? key, w)
  | .keep key payload, w => ((), { w with cache := w.cache.keep key payload })
  | .tell news, w => ((), { w with news := w.news.push news })
  | .print text, w => ((), { w with printed := w.printed ++ text })
  | .complain text, w => ((), { w with complaints := w.complaints ++ text })
  | .now, w => (w.time, w)

end World

end Breadbin
