/-
Sample programs of any size.  A unit uses every construct of the
language once or more; its names carry its number, so that units can
stand in one program.
-/

namespace SketchCompiler.Workload

/-- The lines of a unit, with a hash where its number stands. -/
def unitLines : List String :=
  ["",
   "import \"helper\";",
   "",
   "struct Color# \x7b",
   "    let r: int;",
   "    let g: int;",
   "    let b: int;",
   "\x7d",
   "",
   "struct Sensor# \x7b",
   "    let pin: Pin;",
   "    let scale: float;",
   "    let label: string;",
   "\x7d",
   "",
   "const let LED_PIN#: int = 13;",
   "volatile let counter#: int = 0;",
   "const volatile let FLAG_V#: int = 1;",
   "let ratio_v#: float = 3.14;",
   "let name_v#: string = \"nova\\n\\t\\\"x\\\\\";",
   "let mask_v#: int = 0xFF;",
   "let bits_v#: int = 0b1010;",
   "let durv#: Duration = 250ms;",
   "",
   "bus I2C main_bus# \x7b",
   "    sda: 21;",
   "    scl: 22;",
   "    freq: 400 kHz;",
   "    device imu \x7b address: 0x68; \x7d",
   "    device dac \x7b address: 0x60; \x7d",
   "\x7d",
   "",
   "bus SPI fast_bus# \x7b",
   "    sda: 18;",
   "    scl: 19;",
   "    freq: 1 MHz;",
   "\x7d",
   "",
   "fn clamp#(v: int, lo: int, hi: int) -> int \x7b",
   "    if (v < lo) \x7b return lo; \x7d",
   "    if (v > hi) \x7b return hi; \x7d",
   "    return v;",
   "\x7d",
   "",
   "fn mix#(a: float, b: float) -> float \x7b",
   "    let s: float = a + b;",
   "    let d: float = a - b;",
   "    let p: float = a * b;",
   "    let q: float = a / b;",
   "    return s + d + p + q;",
   "\x7d",
   "",
   "fn noop#() -> void \x7b",
   "\x7d",
   "",
   "fn shade#(c: Color#) -> int \x7b",
   "    let total: int = c.r + c.g + c.b;",
   "    let masked: int = (total & 0xFF) | ((total >> 4) ^ 0x0F);",
   "    let shifted: int = (masked << 1) % 255;",
   "    return shifted;",
   "\x7d",
   "",
   "fn hashSha256Wrapper#() -> int \x7b",
   "    return 0;",
   "\x7d",
   "",
   "fn httpHandler#() -> int \x7b",
   "    return 1;",
   "\x7d",
   "",
   "@core(1)",
   "@rate(500ms)",
   "task heartbeat#() \x7b",
   "    let c: Color# = Color#(r: 10, g: 20, b: 30);",
   "    c.r = c.r + 1;",
   "    let v: int = shade#(c);",
   "    match (v) \x7b",
   "        0 => \x7b digitalWrite(LED_PIN#, 0); \x7d",
   "        1 => \x7b digitalWrite(LED_PIN#, 1); \x7d",
   "        _ => \x7b delay(1ms); \x7d",
   "    \x7d",
   "    unsafe \x7b",
   "        // raw C++ with \"quotes\" and 'chars' and /* block */ and // line",
   "        int x = 0; \x7b x++; \x7d if (x > 0) \x7b WiFi.begin(); mbedtls_md_init(); WebServer s; Wire.begin(); \x7d",
   "    \x7d",
   "\x7d",
   "",
   "@core(0)",
   "@rate(5s)",
   "task slow#() \x7b",
   "    delay(100us);",
   "\x7d",
   "",
   "task plain#() \x7b",
   "    let z: int = 0;",
   "    z += 1;",
   "    z -= 1;",
   "    z *= 2;",
   "    z /= 2;",
   "    z++;",
   "    z--;",
   "\x7d",
   "",
   "fn pick#(flag: bool) -> int \x7b",
   "    let x: int = if (flag) \x7b let t: int = 1; delay(1ms); clamp#(1, 0, 2) \x7d else \x7b 0 \x7d;",
   "    let y: int = if (flag) \x7b 1 \x7d else \x7b 2 \x7d;",
   "    return x + y;",
   "\x7d",
   "",
   "fn logic#(a: bool, b: bool) -> bool \x7b",
   "    return (a && b) || (!a && !b);",
   "\x7d",
   "",
   "fn casts#(v: int) -> float \x7b",
   "    let f: float = v as float;",
   "    let s: string = v as string;",
   "    let back: int = f as int;",
   "    return f + (back as float);",
   "\x7d",
   "",
   "gpioMode(LED_PIN#, out);",
   "gpioMode(34, in);",
   "wifiConnect(\"ssid\", \"pw\");",
   "spawn heartbeat#();",
   "",
   "loop \x7b",
   "    let reading: int = analogRead(32);",
   "    let adc2: int = analogRead(25);",
   "    let neg: int = -reading;",
   "    let inv: int = ~reading;",
   "    let ok: bool = reading >= 100 && reading <= 900 || reading == 0 || reading != 7;",
   "    let dur: Duration = 10ms + 5ms;",
   "    counter# = counter# + 1;",
   "    for (let i: int = 0; i < 4; i = i + 1) \x7b",
   "        digitalWrite(LED_PIN#, i & 1);",
   "        pwmWrite(LED_PIN#, i * 10);",
   "        pwmWrite(LED_PIN#, i * 10, 2);",
   "        rgbWrite(LED_PIN#, clamp#(i, 0, 255), 0, 0);",
   "        delay(5ms);",
   "        delay(2s);",
   "        delay(100);",
   "    \x7d",
   "    for (volatile let j: int = 0; j < 2; j++) \x7b",
   "        \x7b let inner: int = j; inner++; \x7d",
   "    \x7d",
   "    for (const let k: int = 0; FLAG_V# == 1; ) \x7b",
   "        delay(1ms);",
   "    \x7d",
   "    for (counter# = 0; ; counter#++) \x7b",
   "        delay(1ms);",
   "    \x7d",
   "    while (counter# < 3) \x7b",
   "        counter# = counter# + 1;",
   "    \x7d",
   "    if (ok) \x7b",
   "        delay(10ms);",
   "    \x7d else \x7b",
   "        delay(20ms);",
   "    \x7d",
   "    let cfg: Sensor# = Sensor#(pin: 32, scale: 1.5, label: \"s\");",
   "    let call: int = clamp#(reading, 0, 100);",
   "    let fcall: float = mix#(1.0, 2.0);",
   "    return;",
   "\x7d",
   ""]

/-- A line with the number of its unit. -/
def numbered (number : Nat) (line : String) : String :=
  String.ofList (line.toList.flatMap fun c => if c == '#' then Nat.toDigits 10 number else [c])

/-- The unit of a number. -/
def unit (number : Nat) : String :=
  "\n".intercalate (unitLines.map (numbered number))

/-- A program of the given number of units. -/
def program (units : Nat) : String :=
  "\n".intercalate ((List.range units).map unit)

/-- The line is free of what only some boards can do. -/
def isGeneric (line : String) : Bool :=
  !"        rgbWrite".toList.isPrefixOf line.toList

/-- A program without what only some boards can do. -/
def genericProgram (units : Nat) : String :=
  "\n".intercalate ((List.range units).map fun number =>
    "\n".intercalate ((unitLines.filter isGeneric).map (numbered number)))

/-- The module that a unit imports. -/
def helper : String :=
  "fn helper() -> int \x7b\n    return 0;\n\x7d\n"

-- ==== faulty samples

/-- Copies of a line. -/
def copies (count : Nat) (line : String) : String :=
  String.join (List.replicate count (line ++ "\n"))

/-- A text with characters that start no token. -/
def strayCharacters : String :=
  copies 10 "fn f # () -> int \x7b\x7d" ++ "const let a = 1;\n"

/-- A text with characters that start no token and with declarations
that lack their name, among some without a fault. -/
def brokenDeclarations : String :=
  copies 6 "#" ++ copies 16 "let ;" ++ copies 4 "let a = 1;"

/-- A program that uses names it does not define. -/
def undefinedNames (count : Nat) : String :=
  String.join ((List.range count).map fun i => "lost" ++ toString i ++ ";\n")

/-- A program that only some boards can run. -/
def colourLight : String :=
  "rgbWrite(13, 1, 2, 3);\n"

end SketchCompiler.Workload
