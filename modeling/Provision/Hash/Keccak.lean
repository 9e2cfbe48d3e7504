import Provision.Bytes.Fixed

/-! The Keccak hash of 256 bits.

The state is five rows of five lanes, row after row. A round mixes the columns, turns each
lane by an amount of its own and moves it to another place, combines each lane with the two
after it in its row, and adds a constant. -/
namespace Provision.Hash.Keccak

abbrev Lane := UInt64
abbrev State := List Lane

/-- Turns a lane to the left. -/
def turn (lane : Lane) (amount : UInt64) : Lane :=
  (lane <<< amount) ||| (lane >>> (64 - amount))

/-- The lane of a state at a place. -/
def lane (state : State) (place : Nat) : Lane :=
  state.getD place 0

/-- Each lane is mixed with the columns to its left and to its right. -/
def mixColumns (state : State) : State :=
  match state with
  | [a0, a1, a2, a3, a4, b0, b1, b2, b3, b4, c0, c1, c2, c3, c4, d0, d1, d2, d3, d4,
      e0, e1, e2, e3, e4] =>
    let p0 := a0 ^^^ b0 ^^^ c0 ^^^ d0 ^^^ e0
    let p1 := a1 ^^^ b1 ^^^ c1 ^^^ d1 ^^^ e1
    let p2 := a2 ^^^ b2 ^^^ c2 ^^^ d2 ^^^ e2
    let p3 := a3 ^^^ b3 ^^^ c3 ^^^ d3 ^^^ e3
    let p4 := a4 ^^^ b4 ^^^ c4 ^^^ d4 ^^^ e4
    let t0 := p4 ^^^ turn p1 1
    let t1 := p0 ^^^ turn p2 1
    let t2 := p1 ^^^ turn p3 1
    let t3 := p2 ^^^ turn p4 1
    let t4 := p3 ^^^ turn p0 1
    [a0 ^^^ t0, a1 ^^^ t1, a2 ^^^ t2, a3 ^^^ t3, a4 ^^^ t4,
      b0 ^^^ t0, b1 ^^^ t1, b2 ^^^ t2, b3 ^^^ t3, b4 ^^^ t4,
      c0 ^^^ t0, c1 ^^^ t1, c2 ^^^ t2, c3 ^^^ t3, c4 ^^^ t4,
      d0 ^^^ t0, d1 ^^^ t1, d2 ^^^ t2, d3 ^^^ t3, d4 ^^^ t4,
      e0 ^^^ t0, e1 ^^^ t1, e2 ^^^ t2, e3 ^^^ t3, e4 ^^^ t4]
  | _ => state

/-- The lane that comes to each place, and how far it is turned on the way. -/
def moves : List (Nat × UInt64) :=
  [(0, 0), (6, 44), (12, 43), (18, 21), (24, 14),
    (3, 28), (9, 20), (10, 3), (16, 45), (22, 61),
    (1, 1), (7, 6), (13, 25), (19, 8), (20, 18),
    (4, 27), (5, 36), (11, 10), (17, 15), (23, 56),
    (2, 62), (8, 55), (14, 39), (15, 41), (21, 2)]

def moveLanes (state : State) : State :=
  moves.map fun (place, amount) =>
    if amount = 0 then lane state place else turn (lane state place) amount

/-- Combines each lane of a row with the two after it. -/
def combineRows : State → State
  | a :: b :: c :: d :: e :: rest =>
    (a ^^^ (~~~b &&& c)) :: (b ^^^ (~~~c &&& d)) :: (c ^^^ (~~~d &&& e)) ::
      (d ^^^ (~~~e &&& a)) :: (e ^^^ (~~~a &&& b)) :: combineRows rest
  | _ => []

def addConstant (constant : Lane) : State → State
  | first :: rest => (first ^^^ constant) :: rest
  | [] => []

def round (state : State) (constant : Lane) : State :=
  addConstant constant (combineRows (moveLanes (mixColumns state)))

def constants : List Lane :=
  [0x0000000000000001, 0x0000000000008082, 0x800000000000808a, 0x8000000080008000,
    0x000000000000808b, 0x0000000080000001, 0x8000000080008081, 0x8000000000008009,
    0x000000000000008a, 0x0000000000000088, 0x0000000080008009, 0x000000008000000a,
    0x000000008000808b, 0x800000000000008b, 0x8000000000008089, 0x8000000000008003,
    0x8000000000008002, 0x8000000000000080, 0x000000000000800a, 0x800000008000000a,
    0x8000000080008081, 0x8000000000008080, 0x0000000080000001, 0x8000000080008008]

def permute (state : State) : State :=
  constants.foldl round state

/-! ### Absorbing a message -/

/-- The state takes this many bytes at a time. -/
def rate : Nat := 136

/-- The lane of eight bytes, least significant first. -/
def laneOf (bytes : Bytes) : Lane :=
  bytes.foldr (fun byte lane => (lane <<< 8) ||| byte.toUInt64) 0

/-- The bytes of a lane, least significant first. -/
def bytesOf (lane : Lane) : Bytes :=
  (List.range 8).map fun i => (lane >>> (8 * i).toUInt64).toUInt8

/-- Cuts bytes into `count` lanes. -/
def lanesOf : (count : Nat) → Bytes → List Lane
  | 0, _ => []
  | count + 1, bytes => laneOf (bytes.take 8) :: lanesOf count (bytes.drop 8)

/-- Adds lanes to the front of a state. -/
def addLanes : State → List Lane → State
  | a :: state, b :: lanes => (a ^^^ b) :: addLanes state lanes
  | state, _ => state

def absorb (state : State) (block : Bytes) : State :=
  permute (addLanes state (lanesOf (rate / 8) block))

/-- A message is filled up to whole blocks: a one, zeros, and a one in the last bit. -/
def padding (length : Nat) : Bytes :=
  let missing := rate - length % rate
  if missing = 1 then [0x81] else 0x01 :: List.replicate (missing - 2) 0 ++ [0x80]

def absorbAll : (blocks : Nat) → State → Bytes → State
  | 0, state, _ => state
  | blocks + 1, state, bytes => absorbAll blocks (absorb state (bytes.take rate)) (bytes.drop rate)

/-- The state after a message. -/
def digestState (message : Bytes) : State :=
  absorbAll (message.length / rate + 1) (List.replicate 25 0)
    (message ++ padding message.length)

end Keccak

/-- The hash of a message: the first 32 bytes of the state after it. -/
def keccak (message : Bytes) : Provision.Hash :=
  Fixed.front ((Keccak.digestState message).flatMap Keccak.bytesOf)

end Provision.Hash
