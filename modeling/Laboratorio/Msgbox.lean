import Mathlib.Data.List.Forall2
import Laboratorio.CString

/-! The commands `-s`, `-r` and `-a` of `lab-05/msgbox.c` on one queue that `-c` has created, executed one
after another. A message is sent as the bytes of a `msg_t` on the sender's stack, of which `-s` sets only
those of the text and of the user's name. -/

namespace Laboratorio.Msgbox

abbrev USERNAME_MAXSIZE : ℕ := 15
abbrev TXT_SIZE : ℕ := 100

abbrev MAXMSG : ℕ := 10

structure Msg where
  sender : Vector UInt8 USERNAME_MAXSIZE
  text : Vector UInt8 TXT_SIZE
  deriving DecidableEq

/-- A text that a command line can hold and that fits into the message with its terminator. -/
structure Texto where
  bytes : List UInt8
  sinNul : 0 ∉ bytes
  corto : bytes.length < TXT_SIZE

/-- `strncpy(buf, bytes, strlen(bytes))`: no terminator is stored. -/
def strncpy {n : ℕ} (buf : Vector UInt8 n) (bytes : List UInt8) : Vector UInt8 n :=
  Vector.ofFn fun i => if h : i < bytes.length then bytes[i] else buf[i]

/-- `getlogin_r(buf, sizeof(buf))`: without a name, or if it is too long, the buffer stays as it is. -/
def getloginR {n : ℕ} (login : Option (List UInt8)) (buf : Vector UInt8 n) : Vector UInt8 n :=
  match login with
  | some nombre => if nombre.length < n then strncpy buf (nombre ++ [0]) else buf
  | none => buf

/-- What `%s` prints from the first of these bytes on; without a zero among them it reads past them. -/
def cadena (bytes : List UInt8) : Option (List UInt8) := if 0 ∈ bytes then some (cstring bytes) else none

inductive Linea where
  | envio (emisor : Option (List UInt8)) (texto : List UInt8)
  | primerMensaje (texto remitente : Option (List UInt8))
  | recibe (texto : Option (List UInt8))
  | imprimeTodos
  | errorAlRecibir

/-- A `-s` command: its text, and what its process finds in the variables it does not initialise and as
the name of its user. -/
structure Envio where
  texto : Texto
  mensaje : Msg
  emisor : Vector UInt8 USERNAME_MAXSIZE
  login : Option (List UInt8)

/-- The message that a `-s` command sends. -/
def Envio.msg (e : Envio) : Msg where
  sender := getloginR e.login e.mensaje.sender
  text := strncpy e.mensaje.text e.texto.bytes

/-- A command; `-r` and `-a` come with what their `mensaje` holds at first. -/
inductive Orden where
  | s (e : Envio)
  | r (mensaje : Msg)
  | a (mensaje : Msg)

/-- The queue, what the commands printed, and the `-s` commands that have sent their message. -/
structure Buzon where
  cola : List Msg
  salida : List Linea
  enviados : List Envio

/-- `mq_receive` on a queue opened with `O_NONBLOCK`: the first message, or no message and the old
content of the variable. -/
def mqReceive (mensaje : Msg) : List Msg → Bool × Msg × List Msg
  | [] => (false, mensaje, [])
  | m :: cola => (true, m, cola)

/-- The loop of `-a`, entered after a message was received: it ends with the queue empty. -/
def bucle (mensaje : Msg) : List Msg → List Linea
  | [] => [.recibe (cadena mensaje.text.toList)]
  | m :: cola => .recibe (cadena mensaje.text.toList) :: bucle m cola

namespace Buzon

/-- One command; `none` if it waits for ever for a place in the queue. -/
def orden (b : Buzon) : Orden → Option Buzon
  | .s e =>
    if b.cola.length < MAXMSG then
      some {
        cola := b.cola ++ [e.msg]
        salida := b.salida ++ [.envio (cadena (getloginR e.login e.emisor).toList) e.texto.bytes]
        enviados := b.enviados ++ [e] }
    else none
  | .r mensaje => match mqReceive mensaje b.cola with
    | (false, _, _) => some { b with salida := b.salida ++ [.errorAlRecibir] }
    | (true, m, cola) => some { b with
        cola := cola
        -- `sender` lies before `text`, so a name without a zero goes on in the text
        salida := b.salida ++
          [.primerMensaje (cadena m.text.toList) (cadena (m.sender.toList ++ m.text.toList))] }
  | .a mensaje => match mqReceive mensaje b.cola with
    | (false, _, _) => some { b with salida := b.salida ++ [.errorAlRecibir] }
    | (true, m, cola) => some { b with cola := [], salida := b.salida ++ bucle m cola ++ [.imprimeTodos] }

/-- The commands in order, up to one that waits for ever. -/
def correr (b : Buzon) : List Orden → Buzon
  | [] => b
  | o :: ordenes => match b.orden o with
    | none => b
    | some b' => b'.correr ordenes

end Buzon

def vacio : Buzon := { cola := [], salida := [], enviados := [] }

/-- The text of a line about a received message. -/
def Linea.texto : Linea → Option (Option (List UInt8))
  | .primerMensaje texto _ | .recibe texto => some texto
  | .envio _ _ | .imprimeTodos | .errorAlRecibir => none

def Buzon.textos (b : Buzon) : List (Option (List UInt8)) := b.salida.filterMap Linea.texto

def Envio.Limpio (e : Envio) : Prop := e.mensaje.text.toList[e.texto.bytes.length]? = some 0

instance (e : Envio) : Decidable e.Limpio := inferInstanceAs (Decidable (_ = _))

/-! ### One message -/

theorem toList_strncpy {n : ℕ} (buf : Vector UInt8 n) {bytes : List UInt8} (hbytes : bytes.length ≤ n) :
    (strncpy buf bytes).toList = bytes ++ buf.toList.drop bytes.length := by
  apply List.ext_getElem
  · simp
    omega
  · intro i h1 h2
    by_cases hi : i < bytes.length
    · simp [strncpy, hi]
    · simp [strncpy, hi, List.getElem_append_right (Nat.le_of_not_lt hi),
        Nat.add_sub_cancel' (Nat.le_of_not_lt hi)]

theorem Envio.cadena_iff (e : Envio) : cadena e.msg.text.toList = some e.texto.bytes ↔ e.Limpio := by
  have hlen : e.texto.bytes.length < e.mensaje.text.toList.length := by simpa using e.texto.corto
  have htext : e.msg.text.toList = e.texto.bytes ++
      e.mensaje.text.toList[e.texto.bytes.length] :: e.mensaje.text.toList.drop (e.texto.bytes.length + 1) := by
    rw [← List.drop_eq_getElem_cons hlen]
    exact toList_strncpy _ e.texto.corto.le
  have hword := cstring_word_iff e.texto.sinNul e.mensaje.text.toList[e.texto.bytes.length]
    (e.mensaje.text.toList.drop (e.texto.bytes.length + 1))
  unfold Envio.Limpio
  rw [htext, List.getElem?_eq_getElem hlen, Option.some_inj, ← hword]
  constructor
  · intro h
    unfold cadena at h
    split at h
    · exact Option.some_inj.mp h
    · cases h
  · intro h
    have hzero : e.mensaje.text.toList[e.texto.bytes.length] = 0 := hword.mp h
    unfold cadena
    rw [if_pos, h]
    simp [hzero]

/-! ### Whole runs -/

/-- What was printed and then what would be printed for the messages in the queue, against the messages
sent: each text is right exactly when its sender's variable was clean. -/
def EnOrden (b : Buzon) : Prop :=
  List.Forall₂ (fun texto e => texto = some e.texto.bytes ↔ Envio.Limpio e)
    (b.textos ++ b.cola.map fun m => cadena m.text.toList) b.enviados

theorem textos_bucle (mensaje : Msg) (cola : List Msg) :
    (bucle mensaje cola).filterMap Linea.texto = (mensaje :: cola).map fun m => cadena m.text.toList := by
  induction cola generalizing mensaje with
  | nil => rfl
  | cons m cola ih =>
    rw [List.map_cons, ← ih m]
    rfl

theorem textos_orden {b b' : Buzon} {o : Orden} (hrun : b.orden o = some b') (ho : ∀ e, o ≠ .s e) :
    b'.enviados = b.enviados ∧ (b'.textos ++ b'.cola.map fun m => cadena m.text.toList) =
        b.textos ++ b.cola.map fun m => cadena m.text.toList := by
  cases o with
  | s e => exact absurd rfl (ho e)
  | r mensaje | a mensaje =>
    cases hcola : b.cola with
    | nil | cons m cola =>
      simp only [Buzon.orden, hcola, mqReceive, Option.some_inj] at hrun
      subst hrun
      simp [Buzon.textos, Linea.texto, textos_bucle]

theorem EnOrden.orden {b b' : Buzon} (hb : EnOrden b) {o : Orden} (hrun : b.orden o = some b') :
    EnOrden b' := by
  by_cases ho : ∀ e, o ≠ .s e
  · obtain ⟨henviados, htextos⟩ := textos_orden hrun ho
    unfold EnOrden
    rw [henviados, htextos]
    exact hb
  obtain ⟨e, rfl⟩ : ∃ e, o = .s e := by simpa using ho
  unfold Buzon.orden at hrun
  dsimp only at hrun
  split at hrun
  · cases hrun
    unfold EnOrden Buzon.textos
    rw [List.filterMap_append, List.map_append, ← List.append_assoc]
    apply List.rel_append
    · rw [show [Linea.envio (cadena (getloginR e.login e.emisor).toList) e.texto.bytes].filterMap Linea.texto = []
        from rfl, List.append_nil]
      exact hb
    · exact .cons e.cadena_iff .nil
  · cases hrun

theorem EnOrden.correr {b : Buzon} (hb : EnOrden b) (ordenes : List Orden) : EnOrden (b.correr ordenes) := by
  induction ordenes generalizing b with
  | nil => exact hb
  | cons o ordenes ih =>
    unfold Buzon.correr
    cases hrun : b.orden o with
    | none => exact hb
    | some b' => exact ih (hb.orden hrun)

theorem eq_map_iff_of_forall₂ {textos : List (Option (List UInt8))} {enviados : List Envio}
    (h : List.Forall₂ (fun texto e => texto = some e.texto.bytes ↔ Envio.Limpio e) textos enviados) :
    textos = enviados.map (fun e => some e.texto.bytes) ↔ ∀ e ∈ enviados, e.Limpio := by
  induction h with
  | nil => simp
  | cons he _ ih => simp [he, ih]

/-- Every message sent is printed once or still in the queue, in the order of sending; and the printed
texts are the texts sent exactly when each of their senders found a zero in its uninitialised variable at
the place where its text was to end. -/
theorem textos_vuelven_iff (ordenes : List Orden) :
    (vacio.correr ordenes).textos.length + (vacio.correr ordenes).cola.length =
        (vacio.correr ordenes).enviados.length ∧
      ((vacio.correr ordenes).textos = ((vacio.correr ordenes).enviados.take
          (vacio.correr ordenes).textos.length).map (fun e => some e.texto.bytes) ↔
        ∀ e ∈ (vacio.correr ordenes).enviados.take (vacio.correr ordenes).textos.length, e.Limpio) := by
  have hvacio : EnOrden vacio := .nil
  have h := hvacio.correr ordenes
  generalize vacio.correr ordenes = b at h ⊢
  refine ⟨by simpa using h.length_eq, ?_⟩
  have htake := List.forall₂_take b.textos.length h
  rw [List.take_left] at htake
  exact eq_map_iff_of_forall₂ htake

def hi : Texto := { bytes := [104, 105], sinNul := by decide, corto := by decide }

def usada : Msg := { sender := Vector.replicate _ 0, text := strncpy (Vector.replicate _ 0) [97, 98, 99, 100] }

/-- From that variable the text "hi" is sent, and the receiver prints "hicd". -/
theorem hi_llega_hicd :
    (vacio.correr [.s ⟨hi, usada, Vector.replicate _ 0, none⟩, .r usada]).textos = [some [104, 105, 99, 100]] := by
  decide +kernel

end Laboratorio.Msgbox
