import Jz2440.Common.Runs
import Jz2440.Common.Loop
import Jz2440.Common.Memory
import Jz2440.Common.Pool
import Jz2440.Common.Ring
import Jz2440.Common.Bytes
import Jz2440.Common.Errno
import Jz2440.Common.Prog
import Jz2440.Common.History
import Jz2440.Common.CInt
import Jz2440.Common.Checksum
import Jz2440.Common.BitField
import Jz2440.Common.Arm
import Jz2440.Common.Exception
import Jz2440.Common.ShiftSubtract
import Jz2440.Common.Atomic
import Jz2440.I2c.Controller
import Jz2440.I2c.Receive
import Jz2440.I2c.Transfer
import Jz2440.I2c.Transmit
import Jz2440.I2c.Acknowledge
import Jz2440.I2c.At24cxx
import Jz2440.Nand.Chip
import Jz2440.Nand.Flash
import Jz2440.Nand.Erase
import Jz2440.Nand.RoundTrip
import Jz2440.Nand.WholePages
import Jz2440.Nand.BadBlock
import Jz2440.Nand.LogicalStream
import Jz2440.Spi.Flash
import Jz2440.Spi.Gpio
import Jz2440.Spi.Gpgdat
import Jz2440.Spi.Controller
import Jz2440.Spi.OledText
import Jz2440.Spi.W25
import Jz2440.Spi.FlashChip
import Jz2440.Spi.Screen
import Jz2440.Spi.Session
import Jz2440.Timer.SystemTime
import Jz2440.Timer.Table
import Jz2440.Timer.Udelay
import Jz2440.Lcd.Line
import Jz2440.Lcd.Circle
import Jz2440.Lcd.Framebuffer
import Jz2440.Lcd.FontData
import Jz2440.Lcd.Font
import Jz2440.Printf.Format
import Jz2440.Touchscreen.Handlers
import Jz2440.Touchscreen.Stuck
import Jz2440.Touchscreen.Mailbox
import Jz2440.Touchscreen.Provenance
import Jz2440.Touchscreen.Burst
import Jz2440.Touchscreen.Calibrate
import Jz2440.Memdev.Driver
import Jz2440.Memdev.Semaphore
import Jz2440.Memdev.Handshake
import Jz2440.Memdev.FailedCopy
import Jz2440.Globalmem.Driver
import Jz2440.Globalmem.Semaphore
import Jz2440.Irda.CircleBuffer
import Jz2440.Irda.Nec
import Jz2440.Irda.Resync
import Jz2440.Irda.Sound
import Jz2440.Sensors.Dht11
import Jz2440.Sensors.Ds18b20
import Jz2440.Buttons.Debounce
import Jz2440.Buttons.Counting
import Jz2440.Buttons.Freshness
import Jz2440.Buttons.Polled
import Jz2440.Interrupt.Dispatcher
import Jz2440.Interrupt.Exceptions
import Jz2440.Interrupt.KeyEint
import Jz2440.Boot.PageTable
import Jz2440.Boot.Tags
import Jz2440.Boot.Handover
import Jz2440.Boot.Copy
import Jz2440.Boot.StartUp
import Jz2440.Usb.MouseKeys
import Jz2440.LinuxTs.Driver
import Jz2440.LinuxLcd.Palette
import Jz2440.Console.Strtoul
import Jz2440.Console.Dialogue
import Jz2440.Eeprom.Driver
import Jz2440.Eeprom.Store
import Jz2440.Rtc.M41t11
import Jz2440.VirtNet.Echo
import Jz2440.Nor.Write
import Jz2440.Printf.Terminator
import Jz2440.Runtime.Division
import Jz2440.Runtime.Modulo
import Jz2440.Runtime.Signed
import Jz2440.Common.Belt
import Jz2440.Sound.Buffers
import Jz2440.Sound.Playback
import Jz2440.Sound.Recording
