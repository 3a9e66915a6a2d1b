import KsoftPWM.Bounds
import KsoftPWM.Pins
import KsoftPWM.Bank
import KsoftPWM.PinModes
import KsoftPWM.Pulse
import KsoftPWM.Scale
import KsoftPWM.Late
import KsoftPWM.Resources
import KsoftPWM.Glitch
import KsoftPWM.Clients
import KsoftPWM.Failures
import KsoftPWM.Race
import KsoftPWM.Drive
import KsoftPWM.UserMemory
import KsoftPWM.Histogram
import KsoftPWM.Overwrites
import KsoftPWM.Pulsing
import KsoftPWM.Waveform
import KsoftPWM.Refinement
import KsoftPWM.Granularity
import KsoftPWM.Leftovers
import KsoftPWM.DoubleFetch
import KsoftPWM.Readout
import KsoftPWM.Interchange
import KsoftPWM.WaitFree
