import VariantScript.Log

/-!
# The network

Fetching and posting.  A request that is not answered fails; a request that is answered counts as
done, whatever the status.  Every request waits for the same time at most.
-/

namespace VariantScript.Surroundings

/-- Why a request fails. -/
inductive NetworkError where
  /-- Nobody listens at the address. -/
  | refused
  | failed (kind message : String)
deriving DecidableEq, Repr

/-- What is said about the error. -/
def NetworkError.message : NetworkError → String
  | .refused => "refused"
  | .failed _ message => message

/-- The answer to a request. -/
structure Reply where
  text : String
  status : Nat
deriving DecidableEq, Repr

/-- What the addresses of a network answer. -/
structure Network where
  hosts : List (String × Except NetworkError Reply)

/-- What an address answers. -/
def Network.request (net : Network) (url : String) : Except NetworkError Reply :=
  (net.hosts.lookup url).getD (.error .refused)

/-- How a request is made. -/
inductive Method where
  | get
  | post (data : Option String)
deriving DecidableEq, Repr

/-- A request that was made. -/
structure Call where
  method : Method
  url : String
deriving DecidableEq, Repr

/-- How many seconds a request waits. -/
def timeout : Nat := 30

/-- A result with the requests and the log entries on the way to it. -/
structure Exchange (α : Type) where
  result : α
  calls : List Call
  log : List Log.Entry

/-- Fetches the text at an address. -/
def fetchText (net : Network) (url : String) : Exchange (Except NetworkError String) :=
  ⟨(net.request url).map Reply.text, [⟨.get, url⟩], []⟩

/-- The log entry for a fetch of the saved program. -/
def fetchEntry (url : String) : Log.Entry :=
  ⟨.debug, .surroundings, s!"fetching saved source from {url}"⟩

/-- Fetches the saved program from an address, or from the configured one if none is given. -/
def fetchSource (net : Network) (configured : String) (url : Option String) :
    Exchange (Except NetworkError String) :=
  let given := url.getD ""
  let target := if given.isEmpty then configured else given
  let exchange := fetchText net target
  { exchange with log := fetchEntry target :: exchange.log }

/-- Posts data to an address. -/
def post (net : Network) (url : String) (data : Option String) :
    Exchange (Except NetworkError Unit) :=
  let calls := [⟨.post data, url⟩]
  match net.request url with
  | .ok reply =>
      ⟨.ok (), calls, [⟨.info, .surroundings, s!"post to {url} returned {reply.status}"⟩]⟩
  | .error e =>
      ⟨.error e, calls, [⟨.warning, .surroundings, s!"post to {url} failed: {e.message}"⟩]⟩

end VariantScript.Surroundings
