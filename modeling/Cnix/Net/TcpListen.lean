/-
A listening socket: `tcp_listen` and `tcp_state_listen` of `net/tcp.c`.

A `syn` that arrives is queued by `reasm_tcpskb`, in the bottom half;
`tcp_accept` takes it from the queue in `tcp_state_listen`. The address
that `tcp_state_listen` returns and what `tcp_accept` does with it belong
to the new connection and are left out.
-/
import Cnix.Net.SockRead

namespace Cnix.Net

def einval : Int := 22

def eagain : Int := 11

/-- `tcp_listen`; `none` if the socket is not bound. -/
def tcpListen (tserv : Option TcpServ) (backlog : Int) : Except Int TcpServ :=
  match tserv with
  | none => .error (-einval)
  | some serv =>
    if serv.state ≠ .closed then .error (-einval)
    else .ok { serv with
      state := .listen
      backlog := if 0 < backlog then backlog.toNat else 1 }

/-- `tcp_state_listen`. -/
def tcpStateListen (serv : TcpServ) : Int × TcpServ :=
  match serv.rcvskblist with
  | [] => (-eagain, serv)
  | skb :: list =>
    let serv := { serv with rcvskblist := list, synnum := serv.synnum - 1 }
    if !skb.tcp.syn then (-1, serv)
    else
      (0, { serv with
        rcvseq := skb.tcp.seq
        rcvack := skb.tcp.seq + 1
        rcvwin := skb.tcp.window })

/-- What happens to a listening socket. -/
inductive ListenEvent
  | arrive (skb : Skb)
  | accept

/-- The socket after it. -/
def TcpServ.listenStep (serv : TcpServ) : ListenEvent → Option TcpServ
  | .arrive skb =>
    match reasmTcpskb serv skb with
    | .ok reasm => reasm.serv
    | .error _ => none
  | .accept => some (tcpStateListen serv).2

end Cnix.Net
