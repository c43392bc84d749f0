import AsioRsps.Client

/-!
# Connections

What happens to a client between its packets: it is accepted, the functions posted to its
strand are run, its writes complete or fail, and it is destroyed once nothing holds it.
-/
namespace AsioRsps

namespace Server

/-- Nobody has ever pointed to the client. -/
def Unused (s : Server) (c : ClientId) : Prop :=
  s.clients c = none ∧ ∀ p < s.nextPlayer, (s.players p).client ≠ c

/-- `AcceptClients` -/
def accept (s : Server) (c : ClientId) : Server :=
  { s.setClient c {} with sessions := c :: s.sessions }

/-- The last pointer to the client is gone. -/
def destroyClient (s : Server) (c : ClientId) : Server :=
  { s with clients := Function.update s.clients c none }

theorem destroyClient_self (s : Server) (c : ClientId) : (s.destroyClient c).clients c = none :=
  Function.update_self ..

theorem destroyClient_of_ne (s : Server) {c d : ClientId} (h : d ≠ c) :
    (s.destroyClient c).clients d = s.clients d := Function.update_of_ne h ..

end Server

namespace Client

/-- The writes that have not completed. -/
def outstanding (client : Client) : List (List BitStrings.Byte) :=
  client.asyncWrites.drop client.completedWrites

/-- `DoWrite`; the front of an empty queue is undefined. -/
def doWrite (client : Client) : Except Fault Client :=
  match client.writeQueue with
  | [] => .error .outOfBounds
  | front :: _ =>
      .ok { client with writing := true, asyncWrites := client.asyncWrites ++ [front] }

/-- The function posted by `Send`. -/
def push (client : Client) (data : List BitStrings.Byte) : Except Fault Client :=
  let client := { client with writeQueue := client.writeQueue ++ [data] }
  if client.writing then .ok client else doWrite client

/-- The strand runs the function posted first. -/
def runPosted (s : Server) (c : ClientId) : Except Fault Server := do
  let client ← s.lockClient c
  match client.strand with
  | [] => return s
  | .push data :: strand => return s.setClient c (← push { client with strand } data)
  | .requestDisconnect :: strand =>
      let s := s.setClient c { client with strand, pendingDisconnect := true }
      if !client.writing && client.writeQueue.isEmpty then disconnect s c
      else return s

/-- The completion of a write in `DoWrite`, without an error. -/
def written (s : Server) (c : ClientId) : Except Fault Server := do
  let client ← s.lockClient c
  match client.writeQueue with
  | [] => throw .outOfBounds
  | _ :: writeQueue =>
      let client := { client with writeQueue, completedWrites := client.completedWrites + 1 }
      if writeQueue ≠ [] then return s.setClient c (← doWrite client)
      else
        let s := s.setClient c { client with writing := false }
        if client.pendingDisconnect then
          let s ← disconnect s c
          return s.modifyClient c fun client => { client with pendingDisconnect := false }
        else return s

/-- The completion of a write with an error. -/
def writeFailed (s : Server) (c : ClientId) : Except Fault Server := do
  let client ← s.lockClient c
  disconnect (s.setClient c { client with completedWrites := client.completedWrites + 1 }) c

end Client
end AsioRsps
